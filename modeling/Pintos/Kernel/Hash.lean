import Pintos.Lib.Buckets
import Pintos.Lib.Bytes
import Pintos.Lib.Machine
import Mathlib.Data.Nat.Bitwise

/-!
# Hash tables

The hash table of `lib/kernel/hash.c`, which holds the supplemental page table of every process
(`Vm/PageHash.lean`), over any elements and any functions `hash` and `less` that a table can be made
with (`HashFns`): `less` is a strict weak order, and elements of which neither is less than the
other have the same hash.

Every update ends in `rehash`, which picks a number of buckets for the elements there are and moves
each of them, unless the memory for the new buckets cannot be had.  Whether it can is an input of
every call.

`hash_is_finite_map` says what the table is for.  Its calls give the results of a map whose keys are
the classes of equal elements (`mapMachine`), whatever becomes of the memory.  After every run the
number of buckets is a power of two, at least four, the elements are counted, each is in the bucket
of its hash, and no two are equal (`HashOk`).

The buckets and the moves are those of `Lib/Buckets.lean`.
-/

namespace Pintos

open Buckets
open Function (update update_eq_self update_idem update_of_ne update_self)

/-- The functions of a hash table. -/
structure HashFns (α : Type) where
  hash : α → UInt32
  less : α → α → Bool
  irrefl : ∀ a, less a a = false
  trans : ∀ {a b c}, less a b = true → less b c = true → less a c = true
  /-- It is weak: being equal is transitive. -/
  equal_trans : ∀ {a b c}, less a b = false → less b a = false → less b c = false →
    less c b = false → less a c = false ∧ less c a = false
  /-- Equal elements have the same hash. -/
  hash_eq : ∀ {a b}, less a b = false → less b a = false → hash a = hash b

/-- `struct hash`. -/
structure Hash (α : Type) where
  elemCnt : Nat
  bucketCnt : Nat
  buckets : List (List α)

variable {α : Type}

/-! ## The routines -/

/-- `hash_init`, when it returns true. -/
def hashInit : Hash α := ⟨0, 4, List.replicate 4 []⟩

/-- `turn_off_least_1bit`. -/
def turnOffLeast1bit (x : Nat) : Nat := x &&& (x - 1)

/-- `is_power_of_2`. -/
def isPowerOf2 (x : Nat) : Bool := x != 0 && turnOffLeast1bit x == 0

/-- The loop of `rehash` that turns off bits until one is left. -/
def turnOffLoop : (fuel : Nat) → Nat → Nat
  | 0, x => x
  | fuel + 1, x => if isPowerOf2 x then x else turnOffLoop fuel (turnOffLeast1bit x)

/-- `new_bucket_cnt` of `rehash`.  The loop turns off one bit a round, so that it has fewer rounds
than the number it starts with. -/
def newBucketCnt (elemCnt : Nat) : Nat :=
  let bucketCnt := if elemCnt / 2 < 4 then 4 else elemCnt / 2
  turnOffLoop bucketCnt bucketCnt

section Routines

variable (F : HashFns α)

/-- `bucket_idx` of `find_bucket`, for a table of `bucketCnt` buckets. -/
def HashFns.bucketIdx (bucketCnt : Nat) (e : α) : Nat := (F.hash e).toNat &&& (bucketCnt - 1)

/-- Neither element is less than the other. -/
def HashFns.equal (a b : α) : Bool := !F.less a b && !F.less b a

/-- `find_bucket`. -/
def findBucket (h : Hash α) (e : α) : List α := h.buckets.getD (F.bucketIdx h.bucketCnt e) []

/-- `find_elem`. -/
def findElem (bucket : List α) (e : α) : Option α := bucket.find? fun hi => F.equal hi e

/-- `rehash`, with or without the memory for new buckets. -/
def rehash (memory : Bool) (h : Hash α) : Hash α :=
  if newBucketCnt h.elemCnt = h.bucketCnt then h
  else if memory then
    { h with
      bucketCnt := newBucketCnt h.elemCnt
      buckets := h.buckets.foldl
        (fun buckets bucket => bucket.foldl (push (F.bucketIdx (newBucketCnt h.elemCnt))) buckets)
        (List.replicate (newBucketCnt h.elemCnt) []) }
  else h

/-- `insert_elem`, into the bucket of the element. -/
def insertElem (h : Hash α) (e : α) : Hash α :=
  { h with elemCnt := h.elemCnt + 1, buckets := push (F.bucketIdx h.bucketCnt) h.buckets e }

/-- `remove_elem`.  The element to unlink is the one in its bucket that equals it. -/
def removeElem (h : Hash α) (e : α) : Hash α :=
  { h with
    elemCnt := h.elemCnt - 1
    buckets := h.buckets.modify (F.bucketIdx h.bucketCnt e) (·.eraseP fun hi => F.equal hi e) }

/-- `hash_insert`. -/
def hashInsert (memory : Bool) (h : Hash α) (new : α) : Option α × Hash α :=
  match findElem F (findBucket F h new) new with
  | none => (none, rehash F memory (insertElem F h new))
  | some old => (some old, rehash F memory h)

/-- `hash_replace`. -/
def hashReplace (memory : Bool) (h : Hash α) (new : α) : Option α × Hash α :=
  match findElem F (findBucket F h new) new with
  | none => (none, rehash F memory (insertElem F h new))
  | some old => (some old, rehash F memory (insertElem F (removeElem F h old) new))

/-- `hash_find`. -/
def hashFind (h : Hash α) (e : α) : Option α := findElem F (findBucket F h e) e

/-- `hash_delete`. -/
def hashDelete (memory : Bool) (h : Hash α) (e : α) : Option α × Hash α :=
  match findElem F (findBucket F h e) e with
  | none => (none, h)
  | some found => (some found, rehash F memory (removeElem F h found))

end Routines

/-- `hash_bytes`. -/
def hashBytes (buf : List UInt8) : UInt32 :=
  buf.foldl (fun hash b => (hash * 16777619) ^^^ b.toUInt32) 2166136261

/-- `page_hash` and `page_less` of `vm/page.c`, over entries with their address `upage`: the
functions that a supplemental page table is made with. -/
def pageFns (upage : α → Nat) : HashFns α where
  hash e := hashBytes (Bytes.le32 (upage e))
  less a b := decide (upage a < upage b)
  irrefl a := decide_eq_false (Nat.lt_irrefl _)
  trans hab hbc := decide_eq_true (Nat.lt_trans (of_decide_eq_true hab) (of_decide_eq_true hbc))
  equal_trans {a b c} hab hba hbc hcb := by
    simp only [decide_eq_false_iff_not] at *
    omega
  hash_eq {a b} hab hba := by
    simp only [decide_eq_false_iff_not] at hab hba
    rw [Nat.le_antisymm (Nat.not_lt.mp hba) (Nat.not_lt.mp hab)]

/-! ## The machines -/

/-- A call on a table, with an element as its argument. -/
inductive HashCall (α : Type) where
  /-- `hash_insert`. -/
  | insert (new : α)
  /-- `hash_replace`. -/
  | replace (new : α)
  /-- `hash_delete`. -/
  | delete (e : α)
  /-- `hash_find`. -/
  | find (e : α)

/-- A hash table.  Each call comes with whether there is memory for new buckets. -/
def hashMachine (F : HashFns α) : Machine (Hash α) (HashCall α × Bool) (Option α) where
  step h
    | (.insert new, memory) => some (hashInsert F memory h new)
    | (.replace new, memory) => some (hashReplace F memory h new)
    | (.delete e, memory) => some (hashDelete F memory h e)
    | (.find e, _) => some (hashFind F h e, h)

/-- The classes of equal elements. -/
def HashFns.setoid (F : HashFns α) : Setoid α where
  r a b := F.equal a b = true
  iseqv := by
    refine ⟨fun a => ?_, fun {a b} h => ?_, fun {a b c} hab hbc => ?_⟩
    · simp [equal, F.irrefl]
    · rwa [equal, Bool.and_comm] at h
    · simp only [equal, Bool.and_eq_true, Bool.not_eq_true'] at *
      exact F.equal_trans hab.1 hab.2 hbc.1 hbc.2

/-- The key of an element: its class. -/
def HashFns.key (F : HashFns α) (e : α) : Quotient F.setoid := Quotient.mk F.setoid e

instance (F : HashFns α) : DecidableEq (Quotient F.setoid) :=
  @Quotient.decidableEq _ F.setoid fun a b => inferInstanceAs (Decidable (F.equal a b = true))

/-- What the table is for: a map from classes of equal elements to the element stored. -/
def mapMachine (F : HashFns α) :
    Machine (Quotient F.setoid → Option α) (HashCall α × Bool) (Option α) where
  step m
    | (.insert new, _) =>
      match m (F.key new) with
      | some old => some (some old, m)
      | none => some (none, update m (F.key new) (some new))
    | (.replace new, _) => some (m (F.key new), update m (F.key new) (some new))
    | (.delete e, _) => some (m (F.key e), update m (F.key e) none)
    | (.find e, _) => some (m (F.key e), m)

/-! ## The number of buckets -/

theorem turnOffLeast1bit_lt {x : Nat} (h : 0 < x) : turnOffLeast1bit x < x :=
  Nat.and_le_right.trans_lt (Nat.sub_lt h Nat.one_pos)

theorem turnOffLeast1bit_spec {k x : Nat} (hle : 2 ^ k ≤ x) (hlt : x < 2 ^ (k + 1)) :
    (isPowerOf2 x = true → x = 2 ^ k) ∧ (isPowerOf2 x = false → 2 ^ k ≤ turnOffLeast1bit x) := by
  by_cases hx : x = 2 ^ k
  · refine ⟨fun _ => hx, fun hnot => ?_⟩
    have hzero : turnOffLeast1bit x = 0 := by
      rw [turnOffLeast1bit, hx, Nat.and_two_pow_sub_one_eq_mod, Nat.mod_self]
    rw [isPowerOf2, hzero, Bool.and_eq_false_iff] at hnot
    rcases hnot with hnot | hnot
    · have : x = 0 := by simpa using hnot
      omega
    · nomatch hnot
  · have hbit : (turnOffLeast1bit x).testBit k = true := by
      rw [turnOffLeast1bit, Nat.testBit_land,
        Nat.testBit_of_two_pow_le_and_two_pow_add_one_gt hle hlt,
        Nat.testBit_of_two_pow_le_and_two_pow_add_one_gt (by omega) (by omega)]
      rfl
    have hge := Nat.ge_two_pow_of_testBit hbit
    refine ⟨fun hpow => ?_, fun _ => hge⟩
    rw [isPowerOf2, Bool.and_eq_true, beq_iff_eq] at hpow
    omega

/-- **The loop of `rehash`** ends at the power of two below its number. -/
theorem turnOffLoop_eq {k : Nat} (fuel : Nat) : ∀ {x : Nat}, 2 ^ k ≤ x → x < 2 ^ (k + 1) →
    x < 2 ^ k + fuel → turnOffLoop fuel x = 2 ^ k := by
  induction fuel with
  | zero => intro x hle _ hfuel; omega
  | succ fuel ih =>
    intro x hle hlt hfuel
    obtain ⟨hpow, hnot⟩ := turnOffLeast1bit_spec hle hlt
    have hdec := turnOffLeast1bit_lt (x := x) (by omega)
    rw [turnOffLoop]
    split
    next h => exact hpow h
    next h => exact ih (hnot (Bool.eq_false_iff.mpr h)) (by omega) (by
      omega)

theorem newBucketCnt_spec (elemCnt : Nat) :
    ∃ k, newBucketCnt elemCnt = 2 ^ k ∧ 4 ≤ newBucketCnt elemCnt := by
  obtain ⟨x, hx⟩ : ∃ x, (if elemCnt / 2 < 4 then 4 else elemCnt / 2) = x := ⟨_, rfl⟩
  have h4 : 4 ≤ x := by
    rw [← hx]
    split <;> omega
  have hle : 2 ^ Nat.log2 x ≤ x := Nat.log2_self_le (by omega)
  have hlt : x < 2 ^ (Nat.log2 x + 1) := Nat.lt_log2_self
  have hcnt : newBucketCnt elemCnt = 2 ^ Nat.log2 x := by
    rw [newBucketCnt, hx]
    exact turnOffLoop_eq x hle hlt (by omega)
  refine ⟨Nat.log2 x, hcnt, ?_⟩
  have hlog : 2 ≤ Nat.log2 x := (Nat.le_log2 (by omega)).mpr h4
  rw [hcnt]
  exact Nat.pow_le_pow_right (show 0 < 2 by decide) hlog

/-! ## The invariant -/

/-- The elements of a table. -/
def Hash.stored (h : Hash α) : List α := h.buckets.flatten

/-- A table is in order. -/
structure HashOk (F : HashFns α) (h : Hash α) : Prop where
  /-- The number of buckets is a power of two. -/
  power : ∃ k, h.bucketCnt = 2 ^ k
  four : 4 ≤ h.bucketCnt
  length : h.buckets.length = h.bucketCnt
  count : h.elemCnt = h.stored.length
  /-- Each is in the bucket of its hash. -/
  placed : ∀ {i : Nat} {bucket : List α}, h.buckets[i]? = some bucket →
    ∀ e ∈ bucket, (F.hash e).toNat &&& (h.bucketCnt - 1) = i
  unique : h.stored.Pairwise fun a b => F.equal a b = false

/-- The table holds what the map does. -/
def Holds (F : HashFns α) (h : Hash α) (m : Quotient F.setoid → Option α) : Prop :=
  ∀ e x, m (F.key e) = some x ↔ x ∈ h.stored ∧ F.equal x e = true

variable {F : HashFns α} {h : Hash α} {m : Quotient F.setoid → Option α}

namespace HashFns

variable {a b : α}

theorem equal_symm (h : F.equal a b = true) : F.equal b a = true := F.setoid.symm h

theorem equal_eq_false_symm (h : F.equal a b = false) : F.equal b a = false := by
  rwa [equal, Bool.and_comm]

theorem equal_of_equal {c : α} (hac : F.equal a c = true) (hbc : F.equal b c = true) :
    F.equal a b = true := F.setoid.trans hac (F.setoid.symm hbc)

theorem equal_self (a : α) : F.equal a a = true := F.setoid.refl a

theorem key_eq : F.key a = F.key b ↔ F.equal a b = true :=
  ⟨fun h => Quotient.exact h, fun h => Quotient.sound h⟩

theorem bucketIdx_eq (h : F.equal a b = true) (bucketCnt : Nat) :
    F.bucketIdx bucketCnt a = F.bucketIdx bucketCnt b := by
  rw [equal, Bool.and_eq_true, Bool.not_eq_true', Bool.not_eq_true'] at h
  rw [bucketIdx, bucketIdx, F.hash_eq h.1 h.2]

theorem bucketIdx_lt {k : Nat} (e : α) : F.bucketIdx (2 ^ k) e < 2 ^ k := by
  rw [bucketIdx, Nat.and_two_pow_sub_one_eq_mod]
  exact Nat.mod_lt _ (Nat.two_pow_pos k)

end HashFns

namespace HashOk

section

variable (h' : HashOk F h) {e : α}
include h'

theorem idx_lt (e : α) : F.bucketIdx h.bucketCnt e < h.buckets.length := by
  obtain ⟨k, hk⟩ := h'.power
  rw [h'.length, hk]
  exact F.bucketIdx_lt e

theorem getElem?_bucket (e : α) :
    h.buckets[F.bucketIdx h.bucketCnt e]? = some (findBucket F h e) := by
  rw [findBucket, List.getD_eq_getElem _ _ (h'.idx_lt e)]
  exact List.getElem?_eq_getElem (h'.idx_lt e)

theorem eq_of_equal {a b e : α} (ha : a ∈ h.stored) (hb : b ∈ h.stored) (hae : F.equal a e = true)
    (hbe : F.equal b e = true) : a = b := by
  by_contra hne
  have : Std.Symm fun a b : α => F.equal a b = false := ⟨fun _ _ => F.equal_eq_false_symm⟩
  have hnot := h'.unique.forall ha hb hne
  rw [F.equal_of_equal hae hbe] at hnot
  nomatch hnot

/-- **`find_elem`** finds what the map has. -/
theorem findElem_eq (hm : Holds F h m) (e : α) : findElem F (findBucket F h e) e = m (F.key e) := by
  have hplaced : Placed (F.bucketIdx h.bucketCnt) h.buckets := h'.placed
  have hmem : ∀ x, x ∈ findBucket F h e ↔ x ∈ h.stored ∧
      F.bucketIdx h.bucketCnt x = F.bucketIdx h.bucketCnt e :=
    fun x => hplaced.mem_iff (h'.getElem?_bucket e)
  refine Option.ext fun x => ?_
  rw [hm, findElem, find?_eq_some_iff fun a ha b hb hae hbe =>
    h'.eq_of_equal ((hmem a).mp ha).1 ((hmem b).mp hb).1 hae hbe, hmem]
  exact ⟨fun hx => ⟨hx.1.1, hx.2⟩, fun hx => ⟨⟨hx.1, F.bucketIdx_eq hx.2 _⟩, hx.2⟩⟩

theorem of_perm {h1 : Hash α} (hpower : ∃ k, h1.bucketCnt = 2 ^ k) (hfour : 4 ≤ h1.bucketCnt)
    (hlength : h1.buckets.length = h1.bucketCnt) (hcount : h1.elemCnt = h.elemCnt)
    (hplaced : Placed (F.bucketIdx h1.bucketCnt) h1.buckets) (hperm : h1.stored.Perm h.stored) :
    HashOk F h1 where
  power := hpower
  four := hfour
  length := hlength
  count := by rw [hcount, h'.count, hperm.length_eq]
  placed := hplaced
  unique := h'.unique.perm hperm.symm F.equal_eq_false_symm

/-- **`rehash`** keeps the elements, with or without memory. -/
theorem rehash (memory : Bool) :
    HashOk F (rehash F memory h) ∧ (Pintos.rehash F memory h).stored.Perm h.stored := by
  rw [Pintos.rehash]
  split
  next => exact ⟨h', .refl _⟩
  next =>
    split
    next =>
      obtain ⟨k, hpow, hfour⟩ := newBucketCnt_spec h.elemCnt
      have hlt : ∀ e, F.bucketIdx (newBucketCnt h.elemCnt) e
          < (List.replicate (newBucketCnt h.elemCnt) ([] : List α)).length := by
        intro e
        rw [List.length_replicate, hpow]
        exact F.bucketIdx_lt e
      rw [← List.foldl_flatten]
      obtain ⟨hlen, hperm, hplaced⟩ := foldl_push h.buckets.flatten _ (fun e _ => hlt e)
        (placed_replicate (F.bucketIdx (newBucketCnt h.elemCnt)) (newBucketCnt h.elemCnt))
      have hempty : (List.replicate (newBucketCnt h.elemCnt) ([] : List α)).flatten = [] := by
        simp
      rw [hempty, List.append_nil] at hperm
      rw [List.length_replicate] at hlen
      exact ⟨h'.of_perm ⟨k, hpow⟩ hfour hlen rfl hplaced hperm, hperm⟩
    next => exact ⟨h', .refl _⟩

/-- **`insert_elem`**, of an element that equals none there is. -/
theorem insertElem (hnew : ∀ x ∈ h.stored, F.equal e x = false) :
    HashOk F (insertElem F h e) ∧ (Pintos.insertElem F h e).stored.Perm (e :: h.stored) := by
  have hperm : (Pintos.insertElem F h e).stored.Perm (e :: h.stored) := push_perm (h'.idx_lt e)
  have hplaced : Placed (F.bucketIdx h.bucketCnt) h.buckets := h'.placed
  refine ⟨⟨h'.power, h'.four, (length_push ..).trans h'.length, ?_, hplaced.push e, ?_⟩, hperm⟩
  · rw [hperm.length_eq, List.length_cons, ← h'.count]
    rfl
  · exact (List.pairwise_cons.mpr ⟨hnew, h'.unique⟩).perm hperm.symm F.equal_eq_false_symm

/-- **`remove_elem`**, of an element that is there. -/
theorem removeElem (he : e ∈ h.stored) :
    HashOk F (removeElem F h e) ∧ (e :: (Pintos.removeElem F h e).stored).Perm h.stored := by
  have hplaced : Placed (F.bucketIdx h.bucketCnt) h.buckets := h'.placed
  have hbucket := h'.getElem?_bucket e
  have hmem : e ∈ findBucket F h e := (hplaced.mem_iff hbucket).mpr ⟨he, rfl⟩
  -- the element that is unlinked is the one asked for
  have herase : (e :: (findBucket F h e).eraseP fun hi => F.equal hi e).Perm
      (findBucket F h e) := by
    obtain ⟨a, l1, l2, -, hae, heq, hdel⟩ := List.exists_of_eraseP (p := fun hi => F.equal hi e)
      hmem (F.equal_self e)
    have ha : a ∈ findBucket F h e := heq ▸ List.mem_append_right _ (.head _)
    obtain rfl := h'.eq_of_equal ((hplaced.mem_iff hbucket).mp ha).1 he hae (F.equal_self e)
    rw [hdel, heq]
    exact List.perm_middle.symm
  have hperm : (e :: (Pintos.removeElem F h e).stored).Perm h.stored :=
    flatten_modify_perm (r := [e]) (s := []) hbucket herase
  have hpair := h'.unique.perm hperm.symm F.equal_eq_false_symm
  refine ⟨⟨h'.power, h'.four, (List.length_modify ..).trans h'.length, ?_, ?_,
    (List.pairwise_cons.mp hpair).2⟩, hperm⟩
  · have hlen := hperm.length_eq
    rw [List.length_cons, ← h'.count] at hlen
    exact Nat.sub_eq_of_eq_add hlen.symm
  · exact hplaced.modify fun l x _ hx => .inl (List.mem_of_mem_eraseP hx)

end

end HashOk

/-! ## The map -/

variable {h1 : Hash α}

theorem Holds.of_perm (hm : Holds F h m) (hperm : h1.stored.Perm h.stored) : Holds F h1 m := by
  intro e x
  rw [hm e x, hperm.mem_iff]

theorem Holds.insert (hm : Holds F h m) {new : α} (hperm : h1.stored.Perm (new :: h.stored))
    (hnone : m (F.key new) = none) : Holds F h1 (update m (F.key new) (some new)) := by
  intro e x
  rw [hperm.mem_iff, List.mem_cons]
  by_cases hkey : F.key e = F.key new
  · have hequal := F.equal_symm (F.key_eq.mp hkey)
    rw [hkey, update_self, Option.some_inj]
    refine ⟨fun hx => hx ▸ ⟨.inl rfl, hequal⟩, fun hx => ?_⟩
    rcases hx.1 with rfl | hmem
    · rfl
    · have hsome := (hm e x).mpr ⟨hmem, hx.2⟩
      rw [hkey, hnone] at hsome
      nomatch hsome
  · rw [update_of_ne hkey, hm e x]
    refine ⟨fun hx => ⟨.inr hx.1, hx.2⟩, fun hx => ⟨hx.1.resolve_left ?_, hx.2⟩⟩
    rintro rfl
    exact hkey (F.key_eq.mpr (F.equal_symm hx.2))

theorem Holds.remove (hm : Holds F h m) (h' : HashOk F h) {old e : α}
    (hperm : (old :: h1.stored).Perm h.stored) (hold : m (F.key e) = some old) :
    Holds F h1 (update m (F.key e) none) := by
  obtain ⟨hmem, hequal⟩ := (hm e old).mp hold
  have hnot : ∀ x ∈ h1.stored, F.equal x e = false := by
    have hpair := h'.unique.perm hperm.symm F.equal_eq_false_symm
    intro x hx
    rw [Bool.eq_false_iff]
    intro hxe
    have := (List.pairwise_cons.mp hpair).1 x hx
    rw [F.equal_of_equal hequal hxe] at this
    nomatch this
  have hiff : ∀ x, x ∈ h.stored ↔ x = old ∨ x ∈ h1.stored := fun x => by
    rw [← hperm.mem_iff, List.mem_cons]
  intro e' x
  by_cases hkey : F.key e' = F.key e
  · rw [hkey, update_self]
    refine ⟨nofun, fun hx => ?_⟩
    have hxe : F.equal x e = true := F.setoid.trans hx.2 (F.key_eq.mp hkey)
    rw [hnot x hx.1] at hxe
    nomatch hxe
  · rw [update_of_ne hkey, hm e' x, hiff]
    refine ⟨fun hx => ⟨hx.1.resolve_left ?_, hx.2⟩, fun hx => ⟨.inr hx.1, hx.2⟩⟩
    rintro rfl
    exact hkey (F.key_eq.mpr (F.equal_of_equal (F.equal_symm hx.2) (F.equal_symm hequal)))

theorem Holds.equal_eq_false (hm : Holds F h m) {e : α} (hnone : m (F.key e) = none) :
    ∀ x ∈ h.stored, F.equal e x = false := by
  intro x hx
  rw [Bool.eq_false_iff]
  intro hex
  exact nomatch hnone.symm.trans ((hm e x).mpr ⟨hx, F.equal_symm hex⟩)

/-- **Every call** gives the result of the map, and keeps the table in order. -/
theorem hash_simulates (F : HashFns α) :
    (hashMachine F).Simulates (mapMachine F) (fun _ _ => True) fun h m =>
      HashOk F h ∧ Holds F h m := by
  rintro h m ⟨call, memory⟩ o h1 ⟨hok, hm⟩ - hstep
  have hrehash : ∀ {h : Hash α} {m : Quotient F.setoid → Option α}, HashOk F h → Holds F h m →
      HashOk F (rehash F memory h) ∧ Holds F (rehash F memory h) m := fun hok hm =>
    ⟨(hok.rehash memory).1, hm.of_perm (hok.rehash memory).2⟩
  have hinsert : ∀ {h : Hash α} {m : Quotient F.setoid → Option α} {new : α}, HashOk F h →
      Holds F h m → m (F.key new) = none → HashOk F (rehash F memory (insertElem F h new)) ∧
        Holds F (rehash F memory (insertElem F h new))
          (update m (F.key new) (some new)) := by
    intro h m new hok hm hnone
    obtain ⟨hok1, hperm⟩ := hok.insertElem (hm.equal_eq_false hnone)
    exact hrehash hok1 (hm.insert hperm hnone)
  cases call with
  | insert new =>
    simp only [hashMachine, hashInsert, hok.findElem_eq hm] at hstep
    simp only [mapMachine]
    cases hold : m (F.key new) with
    | none =>
      rw [hold] at hstep
      cases hstep
      exact ⟨_, rfl, hinsert hok hm hold⟩
    | some old =>
      rw [hold] at hstep
      cases hstep
      exact ⟨_, rfl, hrehash hok hm⟩
  | replace new =>
    simp only [hashMachine, hashReplace, hok.findElem_eq hm] at hstep
    simp only [mapMachine]
    cases hold : m (F.key new) with
    | none =>
      rw [hold] at hstep
      cases hstep
      exact ⟨_, rfl, hinsert hok hm hold⟩
    | some old =>
      rw [hold] at hstep
      cases hstep
      obtain ⟨hok1, hperm⟩ := hok.removeElem ((hm new old).mp hold).1
      have hinserted := hinsert hok1 (hm.remove hok hperm hold) (update_self ..)
      rw [update_idem] at hinserted
      exact ⟨_, rfl, hinserted⟩
  | delete e =>
    simp only [hashMachine, hashDelete, hok.findElem_eq hm] at hstep
    simp only [mapMachine]
    cases hold : m (F.key e) with
    | none =>
      rw [hold] at hstep
      cases hstep
      rw [show update m (F.key e) none = m from hold ▸ update_eq_self _ _]
      exact ⟨_, rfl, hok, hm⟩
    | some old =>
      rw [hold] at hstep
      cases hstep
      obtain ⟨hok1, hperm⟩ := hok.removeElem ((hm e old).mp hold).1
      exact ⟨_, rfl, hrehash hok1 (hm.remove hok hperm hold)⟩
  | find e =>
    simp only [hashMachine, hashFind, hok.findElem_eq hm] at hstep
    cases hstep
    exact ⟨_, rfl, hok, hm⟩

theorem HashOk.delete (hok : HashOk F h) (hm : Holds F h m) (memory : Bool) (e : α) :
    (hashDelete F memory h e).1 = m (F.key e) ∧ HashOk F (hashDelete F memory h e).2 ∧
      Holds F (hashDelete F memory h e).2 (update m (F.key e) none) := by
  obtain ⟨m', hstep, hok', hm'⟩ := hash_simulates F h m (.delete e, memory)
    (hashDelete F memory h e).1 (hashDelete F memory h e).2 ⟨hok, hm⟩ trivial rfl
  obtain ⟨hfound, rfl⟩ := Prod.mk.inj (Option.some.inj hstep)
  exact ⟨hfound.symm, hok', hm'⟩

theorem HashOk.insert (hok : HashOk F h) (hm : Holds F h m) (memory : Bool) (new : α) :
    (hashInsert F memory h new).1 = m (F.key new) ∧ HashOk F (hashInsert F memory h new).2 ∧
      Holds F (hashInsert F memory h new).2
        ((m (F.key new)).elim (update m (F.key new) (some new)) fun _ => m) := by
  obtain ⟨m', hstep, hok', hm'⟩ := hash_simulates F h m (.insert new, memory)
    (hashInsert F memory h new).1 (hashInsert F memory h new).2 ⟨hok, hm⟩ trivial rfl
  simp only [mapMachine] at hstep
  split at hstep
  next old hold =>
    obtain ⟨hfound, rfl⟩ := Prod.mk.inj (Option.some.inj hstep)
    exact ⟨hfound.symm.trans hold.symm, hok', by rwa [hold]⟩
  next hnone =>
    obtain ⟨hfound, rfl⟩ := Prod.mk.inj (Option.some.inj hstep)
    exact ⟨hfound.symm.trans hnone.symm, hok', by rwa [hnone]⟩

theorem hashOk_init (F : HashFns α) : HashOk F hashInit ∧ Holds F hashInit fun _ => none := by
  refine ⟨⟨⟨2, rfl⟩, le_rfl, rfl, rfl, placed_replicate (F.bucketIdx 4) 4, .nil⟩, fun e x => ?_⟩
  simp [hashInit, Hash.stored]

/-- **The hash table is a finite map.**  Any calls on a new table, with memory for new buckets or
without at each of them, return what a map from classes of equal elements returns.  The table is
then in order, and finding an element gives what the map has for it. -/
theorem hash_is_finite_map (F : HashFns α) (calls : List (HashCall α × Bool)) :
    ∃ results h m, (hashMachine F).run hashInit calls = some (results, h) ∧
      (mapMachine F).run (fun _ => none) calls = some (results, m) ∧ HashOk F h ∧
      ∀ e, hashFind F h e = m (F.key e) := by
  obtain ⟨⟨results, h⟩, hrun⟩ := Machine.exists_run (M := hashMachine F) (fun h call => by
    rcases call with ⟨_ | _ | _ | _, memory⟩ <;> exact ⟨_, rfl⟩) hashInit calls
  obtain ⟨m, hmap, hok, hm⟩ := (hash_simulates F).run (hashOk_init F)
    (.of_forall (fun _ _ _ => trivial) _) hrun
  exact ⟨results, h, m, hrun, hmap, hok, hok.findElem_eq hm⟩

end Pintos
