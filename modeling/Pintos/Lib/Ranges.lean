import Mathlib.Data.List.Nodup
import Mathlib.Data.List.Pairwise

/-!
# Ranges that were handed out

An allocator hands out ranges of numbers: of the pages of a memory, the sectors of a disk, the bytes
of a heap.  `Marks live range taken` says that the ranges of the holders in `live` are pairwise
apart, and that the numbers in them are the ones that are taken.  A range none of whose numbers is
taken can be handed out (`Marks.take`), and a holder can give its range back (`Marks.give`).
-/

namespace Ranges

/-- The numbers from `start` on, `cnt` of them. -/
structure Range where
  start : Nat
  cnt : Nat
deriving DecidableEq, Repr

/-- The number is in the range. -/
def Range.Has (r : Range) (i : Nat) : Prop := r.start ≤ i ∧ i < r.start + r.cnt

instance (r : Range) (i : Nat) : Decidable (r.Has i) :=
  inferInstanceAs (Decidable (r.start ≤ i ∧ i < r.start + r.cnt))

variable {r : Range}

theorem Range.has_start (h : 0 < r.cnt) : r.Has r.start :=
  ⟨Nat.le_refl _, Nat.lt_add_of_pos_right h⟩

/-- No number is in both ranges. -/
def Range.Apart (r s : Range) : Prop := ∀ i, r.Has i → ¬ s.Has i

variable {s : Range}

theorem Range.apart_iff : r.Apart s ↔
    r.cnt = 0 ∨ s.cnt = 0 ∨ r.start + r.cnt ≤ s.start ∨ s.start + s.cnt ≤ r.start := by
  constructor
  · intro h
    by_contra hne
    -- the larger of the two starts is in both
    exact h (max r.start s.start) ⟨by omega, by omega⟩ ⟨by omega, by omega⟩
  · rintro h i ⟨hr, hr'⟩ ⟨hs, hs'⟩
    omega

instance (r s : Range) : Decidable (r.Apart s) := decidable_of_iff _ Range.apart_iff.symm

theorem Range.Apart.symm (h : r.Apart s) : s.Apart r := fun i hs hr => h i hr hs

theorem Range.Apart.mono {r' s' : Range} (h : r.Apart s) (hr : ∀ i, r'.Has i → r.Has i)
    (hs : ∀ i, s'.Has i → s.Has i) : r'.Apart s' :=
  fun i hi hi' => h i (hr i hi) (hs i hi')

theorem Range.apart_of_mem {l : List Range} (h : l.Pairwise Range.Apart) (hr : r ∈ l) (hs : s ∈ l)
    (hne : r ≠ s) : r.Apart s :=
  haveI : Std.Symm Range.Apart := ⟨fun _ _ hrs => hrs.symm⟩
  h.forall hr hs hne

variable {α : Type}

/-- The holders have ranges apart from each other, and the numbers in them are taken. -/
structure Marks (live : List α) (range : α → Range) (taken : Nat → Bool) : Prop where
  apart : live.Pairwise fun a b => (range a).Apart (range b)
  /-- What is in one of them is taken, and nothing else. -/
  iff : ∀ i, taken i = true ↔ ∃ a ∈ live, (range a).Has i

variable {live : List α} {range : α → Range} {taken : Nat → Bool}

theorem marks_nil (range : α → Range) : Marks [] range fun _ => false :=
  ⟨.nil, fun _ => ⟨nofun, fun ⟨_, h, _⟩ => absurd h List.not_mem_nil⟩⟩

variable {taken' : Nat → Bool}

section

variable (h : Marks live range taken) {a : α}
include h

theorem Marks.congr (heq : ∀ i, taken' i = taken i) : Marks live range taken' :=
  ⟨h.apart, fun i => by rw [heq]; exact h.iff i⟩

/-- **A range is handed out**, none of whose numbers is taken. -/
theorem Marks.take (hfree : ∀ i, (range a).Has i → taken i = false)
    (heq : ∀ i, taken' i = if (range a).Has i then true else taken i) :
    Marks (a :: live) range taken' := by
  refine ⟨List.pairwise_cons.mpr ⟨fun b hb i hai hbi => ?_, h.apart⟩, fun i => ?_⟩
  · have htaken := (h.iff i).mpr ⟨b, hb, hbi⟩
    rw [hfree i hai] at htaken
    nomatch htaken
  · rw [heq]
    split
    next hi => exact iff_of_true rfl ⟨a, .head _, hi⟩
    next hi =>
      rw [h.iff]
      constructor
      · rintro ⟨b, hb, hbi⟩
        exact ⟨b, .tail _ hb, hbi⟩
      · rintro ⟨b, hb, hbi⟩
        rcases List.mem_cons.mp hb with rfl | hb
        · exact absurd hbi hi
        · exact ⟨b, hb, hbi⟩

/-- **A range is given back.** -/
theorem Marks.give [DecidableEq α] (ha : a ∈ live)
    (heq : ∀ i, taken' i = if (range a).Has i then false else taken i) :
    Marks (live.erase a) range taken' := by
  have hperm := List.perm_cons_erase ha
  have hapart := h.apart.perm hperm fun hxy => hxy.symm
  rw [List.pairwise_cons] at hapart
  refine ⟨hapart.2, fun i => ?_⟩
  rw [heq]
  split
  next hi => exact iff_of_false Bool.false_ne_true fun ⟨b, hb, hbi⟩ => hapart.1 b hb i hi hbi
  next hi =>
    rw [h.iff]
    constructor
    · rintro ⟨b, hb, hbi⟩
      rcases List.mem_cons.mp (hperm.mem_iff.mp hb) with rfl | hb
      · exact absurd hbi hi
      · exact ⟨b, hb, hbi⟩
    · rintro ⟨b, hb, hbi⟩
      exact ⟨b, List.mem_of_mem_erase hb, hbi⟩

end

end Ranges
