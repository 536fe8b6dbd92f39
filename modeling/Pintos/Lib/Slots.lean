import Mathlib.Tactic.Common

/-!
# Slots and their owners

A pool of slots, of which some are marked as taken, and the owners that each hold one: the frames of
a memory, the sectors of a disk, the cells of an array.  A slot has contents, and an owner remembers
what it has put there.

`Owned S slot taken content kept` says that the taken slots are exactly those of the owners in `S`,
that no two owners share one, and that the slot of an owner holds what it has kept.  An owner that
takes a free slot (`Owned.take`) or gives its slot back (`Owned.give`) keeps it so.
-/

namespace Slots

open Function (update update_of_ne update_self)

variable {ε ι β : Type}

/-- The taken slots are those of the owners, each its own, with what the owner has put there. -/
structure Owned (S : ε → Prop) (slot : ε → ι) (taken : ι → Bool) (content : ι → β) (kept : ε → β) :
    Prop where
  /-- The slot of an owner is taken, and no other is. -/
  taken_iff : ∀ i, taken i = true ↔ ∃ e, S e ∧ slot e = i
  injective : ∀ e e', S e → S e' → slot e = slot e' → e = e'
  /-- It holds what the owner has put there. -/
  content : ∀ e, S e → content (slot e) = kept e

variable {S S' : ε → Prop} {slot slot' : ε → ι} {taken taken' : ι → Bool}
  {content content' : ι → β} {kept kept' : ε → β}

section

variable (h : Owned S slot taken content kept) {e : ε}
include h

theorem Owned.congr (hS : ∀ e, S' e ↔ S e)
    (hslot : ∀ e, S e → slot' e = slot e) (hkept : ∀ e, S e → kept' e = kept e)
    (htaken : taken' = taken) (hcontent : content' = content) :
    Owned S' slot' taken' content' kept' := by
  subst htaken hcontent
  refine ⟨fun i => (h.taken_iff i).trans ⟨?_, ?_⟩, fun e e' he he' heq => ?_, fun e he => ?_⟩
  · rintro ⟨e, he, rfl⟩
    exact ⟨e, (hS e).mpr he, hslot e he⟩
  · rintro ⟨e, he, rfl⟩
    exact ⟨e, (hS e).mp he, (hslot e ((hS e).mp he)).symm⟩
  · have he := (hS e).mp he
    have he' := (hS e').mp he'
    rw [hslot e he, hslot e' he'] at heq
    exact h.injective e e' he he' heq
  · have he := (hS e).mp he
    rw [hslot e he, hkept e he]
    exact h.content e he

/-- **Taking a slot** that is free. -/
theorem Owned.take [DecidableEq ε] [DecidableEq ι] {i : ι} {v : β} (he : ¬ S e)
    (hfree : taken i = false) (hcontent : content' i = v)
    (hother : ∀ j, j ≠ i → content' j = content j) :
    Owned (fun x => x = e ∨ S x) (update slot e i) (update taken i true) content'
      (update kept e v) := by
  have hne : ∀ x, S x → x ≠ e := fun x hx heq => he (heq ▸ hx)
  have hslot : ∀ x, S x → slot x ≠ i := fun x hx heq => by
    have := (h.taken_iff i).mpr ⟨x, hx, heq⟩
    rw [hfree] at this
    cases this
  refine ⟨fun j => ?_, fun x y hx hy heq => ?_, fun x hx => ?_⟩
  · by_cases hj : j = i
    · subst hj
      rw [update_self]
      exact ⟨fun _ => ⟨e, .inl rfl, update_self ..⟩, fun _ => rfl⟩
    · rw [update_of_ne hj, h.taken_iff]
      constructor
      · rintro ⟨x, hx, rfl⟩
        exact ⟨x, .inr hx, update_of_ne (hne x hx) ..⟩
      · rintro ⟨x, rfl | hx, hxj⟩
        · rw [update_self] at hxj
          exact absurd hxj.symm hj
        · rw [update_of_ne (hne x hx)] at hxj
          exact ⟨x, hx, hxj⟩
  · rcases hx with rfl | hx <;> rcases hy with rfl | hy
    · rfl
    · rw [update_self, update_of_ne (hne y hy)] at heq
      exact absurd heq.symm (hslot y hy)
    · rw [update_self, update_of_ne (hne x hx)] at heq
      exact absurd heq (hslot x hx)
    · rw [update_of_ne (hne x hx), update_of_ne (hne y hy)] at heq
      exact h.injective x y hx hy heq
  · rcases hx with rfl | hx
    · rw [update_self, update_self]
      exact hcontent
    · rw [update_of_ne (hne x hx), update_of_ne (hne x hx), hother _ (hslot x hx)]
      exact h.content x hx

/-- **Giving a slot back.** -/
theorem Owned.give [DecidableEq ι] (he : S e) :
    Owned (fun x => x ≠ e ∧ S x) slot (update taken (slot e) false) content kept := by
  have hslot : ∀ x, x ≠ e → S x → slot x ≠ slot e := fun x hx hS heq =>
    hx (h.injective x e hS he heq)
  refine ⟨fun j => ?_, fun x y hx hy heq => h.injective x y hx.2 hy.2 heq,
    fun x hx => h.content x hx.2⟩
  by_cases hj : j = slot e
  · subst hj
    rw [update_self]
    exact ⟨nofun, fun ⟨x, hx, heq⟩ => absurd heq (hslot x hx.1 hx.2)⟩
  · rw [update_of_ne hj, h.taken_iff]
    constructor
    · rintro ⟨x, hx, rfl⟩
      exact ⟨x, ⟨fun heq => hj (heq ▸ rfl), hx⟩, rfl⟩
    · rintro ⟨x, hx, rfl⟩
      exact ⟨x, hx.2, rfl⟩

end

end Slots
