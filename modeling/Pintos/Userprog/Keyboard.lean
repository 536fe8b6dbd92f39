import Pintos.Lib.Memory
import Pintos.Userprog.Syscall

/-!
# Reading from the keyboard

`SYS_READ` with the descriptor 0 stores the keys through `read_buffer`, which is a pointer to words:
the key number `i` goes to the byte `4 * i` of the buffer, and the three bytes after it become 0.
What is returned is set in the loop, and so not at all for a size of 0.  `check_address` looks at
the first byte of the buffer only, and addresses wrap around.

* `Filled` is what the call is for.
* `keyboard_read_iff`: it is done exactly if the buffer passes the check and can be stored to up to
  four times the size, every key after the first is 0, the bytes after the buffer up to four times
  the size are 0 already, and `eax` is 0 before a call that reads nothing.
-/

namespace Pintos

open ByteMemory Bytes

/-- What `SYS_READ` works on. -/
structure KeyRead where
  mem : Mem 32
  /-- `f->eax`. -/
  eax : Word
  /-- How many keys `input_getc` has returned. -/
  got : Nat

/-- The memory of the process, as the call finds it. -/
structure KeyPages where
  /-- Whether `pagedir_get_page` finds a page. -/
  present : Word → Bool
  /-- Whether a store goes through, with the page fault that it may cause.  If not, the process
  ends. -/
  stores : Word → Bool

/-- `check_address` returns. -/
def KeyPages.Passes (pages : KeyPages) (addr : Word) : Prop :=
  addr ≠ 0 ∧ Kernel.isUserVaddr addr ∧ pages.present addr

instance (pages : KeyPages) (addr : Word) : Decidable (pages.Passes addr) :=
  inferInstanceAs (Decidable (_ ∧ _))

/-- The words from an address on can be stored to. -/
def KeyPages.Stores (pages : KeyPages) (addr : Word) (words : Nat) : Prop :=
  ∀ j < 4 * words, pages.stores (addr + BitVec.ofNat 32 j)

instance (pages : KeyPages) (addr : Word) (words : Nat) : Decidable (pages.Stores addr words) :=
  inferInstanceAs (Decidable (∀ j < 4 * words, _))

namespace KeyRead

variable (pages : KeyPages) (keys : Nat → UInt8) (buffer size : Word)

/-- What one round of the loop stores. -/
def keyStored (st : KeyRead) (i : Nat) : KeyRead where
  mem := copy st.mem (buffer + BitVec.ofNat 32 (4 * i)) (le32 (keys st.got).toNat)
  eax := size
  got := st.got + 1

/-- One round of the loop, `read_buffer[i] = input_getc()`. -/
def keyRound (st : KeyRead) (i : Nat) : Option KeyRead :=
  if pages.Stores (buffer + BitVec.ofNat 32 (4 * i)) 1 then some (st.keyStored keys buffer size i)
  else none

/-- `SYS_READ` with the descriptor 0, whose arguments are there.  There is no result if the process
is killed. -/
def sysReadKeys (st : KeyRead) : Option KeyRead :=
  if pages.Passes buffer then (List.range size.toNat).foldlM (keyRound pages keys buffer size) st
  else none

/-- What the first rounds of the loop store. -/
def keysStored (st : KeyRead) (k : Nat) : KeyRead :=
  (List.range k).foldl (keyStored keys buffer size) st

/-- The byte at a distance from the buffer. -/
def byte (st : KeyRead) (j : Nat) : UInt8 := st.mem (buffer + BitVec.ofNat 32 j)

/-- **What the call is for**: the next keys stand in the buffer, everything else is as before, and
the size is returned. -/
structure Filled (st st' : KeyRead) : Prop where
  inside : ∀ j < size.toNat, st'.byte buffer j = keys (st.got + j)
  outside : ∀ j < 2 ^ 32, size.toNat ≤ j → st'.byte buffer j = st.byte buffer j
  got : st'.got = st.got + size.toNat
  eax : st'.eax = size

/-- **Words in place of bytes do no harm.**  The last line is about a loop that wraps around, and
comes back to the first byte. -/
structure Harmless (st : KeyRead) : Prop where
  later : ∀ j < size.toNat, 0 < j → keys (st.got + j) = 0
  after : ∀ j < 2 ^ 32, size.toNat ≤ j → j < 4 * size.toNat → st.byte buffer j = 0
  empty : size = 0 → st.eax = 0
  first : 2 ^ 30 < size.toNat → keys st.got = 0

variable {pages keys buffer size} {st : KeyRead} {i j k : Nat}

/-! ## The rounds -/

theorem keysStored_succ (st : KeyRead) (k : Nat) : st.keysStored keys buffer size (k + 1) =
    (st.keysStored keys buffer size k).keyStored keys buffer size k := by
  simp [keysStored, List.range_succ]

theorem got_keysStored (st : KeyRead) (k : Nat) :
    (st.keysStored keys buffer size k).got = st.got + k := by
  induction k with
  | zero => rfl
  | succ k ih => rw [keysStored_succ, keyStored, ih, Nat.add_assoc]

/-- **One round** writes the bytes whose distance from the buffer, divided by 4, is its number. -/
theorem byte_keyStored (st : KeyRead) (i : Nat) (hj : j < 2 ^ 32) :
    (st.keyStored keys buffer size i).byte buffer j =
      if i % 2 ^ 30 = j / 4 then if j % 4 = 0 then keys st.got else 0 else st.byte buffer j := by
  have hdist : (buffer + BitVec.ofNat 32 j - (buffer + BitVec.ofNat 32 (4 * i))).toNat =
      (2 ^ 32 - 4 * i % 2 ^ 32 + j) % 2 ^ 32 := by
    rw [add_sub_add_left_eq_sub, BitVec.toNat_sub, BitVec.toNat_ofNat, BitVec.toNat_ofNat,
      Nat.mod_eq_of_lt hj]
  have hkey := (keys st.got).toNat_lt
  simp only [byte, keyStored, copy, hdist, length_le32]
  by_cases heq : i % 2 ^ 30 = j / 4
  · have hofs : (2 ^ 32 - 4 * i % 2 ^ 32 + j) % 2 ^ 32 = j % 4 := by omega
    have hsmall : ∀ n, 256 ≤ n → (keys st.got).toNat / n = 0 := fun n hn =>
      Nat.div_eq_of_lt (hkey.trans_le hn)
    rw [if_pos heq, hofs, if_pos (Nat.mod_lt j (by decide)), le32, hsmall 256 (by decide),
      hsmall 65536 (by decide), hsmall 16777216 (by decide), UInt8.ofNat_toNat]
    have hlt : j % 4 < 4 := Nat.mod_lt j (by decide)
    interval_cases j % 4 <;> rfl
  · rw [if_neg heq, if_neg (by omega)]

theorem byte_keysStored_of_ne (hj : j < 2 ^ 32) (h : ∀ i < k, i % 2 ^ 30 ≠ j / 4) :
    (st.keysStored keys buffer size k).byte buffer j = st.byte buffer j := by
  induction k with
  | zero => rfl
  | succ k ih =>
    rw [keysStored_succ, byte_keyStored _ k hj, if_neg (h k k.lt_succ_self),
      ih fun i hi => h i (hi.trans k.lt_succ_self)]

theorem byte_keysStored_of_last (hj : j < 2 ^ 32) (hi : i < k) (heq : i % 2 ^ 30 = j / 4)
    (hlast : k ≤ i + 2 ^ 30) :
    (st.keysStored keys buffer size k).byte buffer j =
      if j % 4 = 0 then keys (st.got + i) else 0 := by
  induction k with
  | zero => nomatch hi
  | succ k ih =>
    rw [keysStored_succ, byte_keyStored _ k hj, got_keysStored]
    by_cases hk : i = k
    · rw [if_pos (hk ▸ heq), hk]
    · rw [if_neg (by omega), ih (by omega) (by omega)]

/-- **The last round that writes a byte** decides what stands there. -/
theorem exists_byte_keysStored (st : KeyRead) (hj : j < 2 ^ 32) (hk : j / 4 < k) :
    ∃ i < k, i % 2 ^ 30 = j / 4 ∧ k ≤ i + 2 ^ 30 ∧
      (st.keysStored keys buffer size k).byte buffer j =
        if j % 4 = 0 then keys (st.got + i) else 0 := by
  have hlt : k - 1 - (k - 1 - j / 4) % 2 ^ 30 < k := by omega
  have heq : (k - 1 - (k - 1 - j / 4) % 2 ^ 30) % 2 ^ 30 = j / 4 := by omega
  exact ⟨_, hlt, heq, by omega, byte_keysStored_of_last hj hlt heq (by omega)⟩

/-- **The loop** gets to its end if all that it stores to can be stored to. -/
theorem foldlM_keyRound (st : KeyRead) (k : Nat) :
    (List.range k).foldlM (keyRound pages keys buffer size) st =
      if pages.Stores buffer k then some (st.keysStored keys buffer size k) else none := by
  induction k with
  | zero => rfl
  | succ k ih =>
    have hsplit : pages.Stores buffer (k + 1) ↔
        pages.Stores buffer k ∧ pages.Stores (buffer + BitVec.ofNat 32 (4 * k)) 1 := by
      simp only [KeyPages.Stores, BitVec.add_assoc, ← BitVec.ofNat_add]
      refine ⟨fun h => ⟨fun j hj => h j (by omega), fun j hj => h _ (by omega)⟩, fun h j hj => ?_⟩
      rcases Nat.lt_or_ge j (4 * k) with hlt | hge
      · exact h.1 j hlt
      · obtain ⟨i, rfl⟩ := Nat.exists_eq_add_of_le hge
        exact h.2 i (by omega)
    rw [List.range_succ, List.foldlM_append, ih, keysStored_succ]
    by_cases hfirst : pages.Stores buffer k <;>
      by_cases hlast : pages.Stores (buffer + BitVec.ofNat 32 (4 * k)) 1 <;>
      simp [keyRound, hsplit, hfirst, hlast]

/-! ## The whole call -/

/-- A key that is not 0 has a number that every power of 4 divides: the byte with its number is
written by the round with a quarter of that number, and holds the key of that round. -/
theorem Filled.pow_dvd (h : Filled keys buffer size st (st.keysStored keys buffer size size.toNat))
    {e : Nat} (he : e ≤ 16) (hj : j < size.toNat) (hne : keys (st.got + j) ≠ 0) : 4 ^ e ∣ j := by
  induction e generalizing j with
  | zero => exact one_dvd j
  | succ e ih =>
    obtain ⟨i, hi, heq, -, hbyte⟩ := exists_byte_keysStored st (by omega)
      (show j / 4 < size.toNat by omega)
    rw [← h.inside j hj, hbyte, ne_eq, ite_eq_right_iff, not_forall] at hne
    obtain ⟨hmod, hkey⟩ := hne
    have hpow : 4 ^ e ∣ 2 ^ 30 := by
      rw [show (2 : Nat) ^ 30 = 4 ^ 15 by rfl]
      exact pow_dvd_pow 4 (by omega)
    have hquarter : 4 ^ e ∣ j / 4 := heq ▸ (Nat.dvd_mod_iff hpow).mpr (ih (by omega) hi hkey)
    rw [pow_succ', ← Nat.div_add_mod j 4, hmod]
    exact Nat.mul_dvd_mul_left 4 hquarter

theorem Filled.harmless
    (h : Filled keys buffer size st (st.keysStored keys buffer size size.toNat)) :
    Harmless keys buffer size st := by
  have hkeys : ∀ j < size.toNat, 0 < j → keys (st.got + j) = 0 := by
    intro j hj hpos
    by_contra hne
    have hdvd := h.pow_dvd le_rfl hj hne
    exact hpos.ne' (Nat.eq_zero_of_dvd_of_lt hdvd (by omega))
  refine ⟨hkeys, fun j hj hle hlt => ?_, fun hzero => ?_, fun hmany => ?_⟩
  · obtain ⟨i, hi, heq, -, hbyte⟩ := exists_byte_keysStored st hj (show j / 4 < size.toNat by omega)
    rw [← h.outside j hj hle, hbyte, ite_eq_right_iff]
    exact fun hmod => hkeys i hi (by omega)
  · have heax := h.eax
    subst hzero
    exact heax
  · obtain ⟨i, hi, heq, hlast, hbyte⟩ := exists_byte_keysStored st (by decide)
      (show 0 / 4 < size.toNat by omega)
    have hfirst := (h.inside 0 (by omega)).symm.trans hbyte
    exact hfirst.trans ((if_pos rfl).trans (hkeys i hi (by omega)))

theorem Harmless.filled (h : Harmless keys buffer size st) :
    Filled keys buffer size st (st.keysStored keys buffer size size.toNat) := by
  refine ⟨fun j hj => ?_, fun j hj hle => ?_, got_keysStored st _, ?_⟩
  · obtain ⟨i, hi, heq, -, hbyte⟩ := exists_byte_keysStored st (by omega)
      (show j / 4 < size.toNat by omega)
    rw [hbyte]
    rcases j.eq_zero_or_pos with rfl | hpos
    · rcases i.eq_zero_or_pos with rfl | hipos
      · rfl
      · rw [if_pos rfl, h.later i hi hipos, Nat.add_zero, h.first (by omega)]
    · rw [h.later j hj hpos, ite_eq_right_iff]
      exact fun hmod => h.later i hi (by omega)
  · by_cases hnear : j / 4 < size.toNat
    · obtain ⟨i, hi, heq, -, hbyte⟩ := exists_byte_keysStored st hj hnear
      rw [hbyte, h.after j hj hle (by omega), ite_eq_right_iff]
      exact fun hmod => h.later i hi (by omega)
    · exact byte_keysStored_of_ne hj fun i hi => by omega
  · cases hsize : size.toNat with
    | zero =>
      have hzero : size = 0 := BitVec.eq_of_toNat_eq hsize
      exact (h.empty hzero).trans hzero.symm
    | succ k => rw [keysStored_succ, keyStored]

end KeyRead

/-- **A read from the keyboard** fills the buffer and nothing else if and only if the buffer passes
the check, the words can be stored to, and words in place of bytes do no harm. -/
theorem keyboard_read_iff (pages : KeyPages) (keys : Nat → UInt8) (buffer size : Word)
    (st : KeyRead) :
    (∃ st', st.sysReadKeys pages keys buffer size = some st' ∧
      KeyRead.Filled keys buffer size st st') ↔
    pages.Passes buffer ∧ pages.Stores buffer size.toNat ∧
      KeyRead.Harmless keys buffer size st := by
  simp only [KeyRead.sysReadKeys, KeyRead.foldlM_keyRound, Option.ite_none_right_eq_some,
    Option.some_inj]
  constructor
  · rintro ⟨st', ⟨hpass, hstores, rfl⟩, hfilled⟩
    exact ⟨hpass, hstores, hfilled.harmless⟩
  · rintro ⟨hpass, hstores, hharmless⟩
    exact ⟨_, ⟨hpass, hstores, rfl⟩, hharmless.filled⟩

/-- **The bytes after the buffer are overwritten** by a read of one key, and a read of no key
returns what was in `eax`. -/
theorem keyboard_read_overruns :
    let st : KeyRead := ⟨fun _ => 255, 7, 0⟩
    let read := st.sysReadKeys ⟨fun _ => true, fun _ => true⟩ (fun _ => 97) 0x8049000
    (read 1).map (·.mem 0x8049001) = some 0 ∧ (read 0).map (·.eax) = some 7 ∧
      ¬ ∃ st', read 1 = some st' ∧ KeyRead.Filled (fun _ => 97) 0x8049000 1 st st' := by
  refine ⟨by decide, by decide, ?_⟩
  rintro ⟨st', hread, hfilled⟩
  cases hread
  exact absurd (hfilled.outside 1 (by decide) (by decide)) (by decide)

end Pintos
