import Mathlib.Tactic.Common

/-!
# Computations that may stop

Rules for a computation that returns or stops with a reason, an `Except`: what a sequence of two has
done if it has returned (`bind_eq_ok`, `toOption_eq_some`), and the invariants of a loop over a list
(`foldlM_invariant`, `foldlM_induction`).  `bind_ne_error` and `foldlM_ne_error` are the rules for
showing that it does not stop with a certain reason, and `stopOf` computes the reason.
-/

namespace Outcome

variable {ε σ α β : Type} {x : Except ε α}

theorem bind_eq_ok {f : α → Except ε β} {b : β} :
    (x >>= f) = .ok b ↔ ∃ a, x = .ok a ∧ f a = .ok b := by
  cases x with
  | error e => exact ⟨nofun, nofun⟩
  | ok a =>
    refine ⟨fun h => ⟨a, rfl, h⟩, ?_⟩
    rintro ⟨a', ha, hb⟩
    cases ha
    exact hb

theorem toOption_eq_some {a : α} : x.toOption = some a ↔ x = .ok a := by
  cases x with
  | error e => exact ⟨nofun, nofun⟩
  | ok b => exact ⟨fun h => congrArg _ (Option.some_inj.mp h), fun h => by cases h; rfl⟩

variable {f : σ → α → Except ε σ} {P : List α → σ → Prop} {r : ε}

/-- **Loops.**  If each round takes the claim for the elements that are left to the claim for those
left after it, the loop takes it from the whole list to the empty one. -/
theorem foldlM_induction (hstep : ∀ a l s s', P (a :: l) s → f s a = .ok s' → P l s') :
    ∀ {l : List α} {s s' : σ}, P l s → l.foldlM f s = .ok s' → P [] s'
  | [], _, _, hP, h => by cases h; exact hP
  | a :: l, s, s', hP, h => by
    rw [List.foldlM_cons, bind_eq_ok] at h
    obtain ⟨s1, hfirst, hrest⟩ := h
    exact foldlM_induction hstep (hstep a l s s1 hP hfirst) hrest

theorem foldlM_invariant {P : σ → Prop} {l : List α}
    (hstep : ∀ a ∈ l, ∀ s s', P s → f s a = .ok s' → P s') {s s' : σ} (hP : P s)
    (h : l.foldlM f s = .ok s') : P s' := by
  have hrun := foldlM_induction (P := fun rest s => (∀ a ∈ rest, a ∈ l) ∧ P s)
    (fun a rest s s' hPs hf => ⟨fun b hb => hPs.1 b (.tail _ hb),
      hstep a (hPs.1 a (.head _)) s s' hPs.2 hf⟩) ⟨fun _ ha => ha, hP⟩ h
  exact hrun.2

theorem bind_ne_error {f : α → Except ε β} (hx : x ≠ .error r)
    (hf : ∀ a, x = .ok a → f a ≠ .error r) : (x >>= f) ≠ .error r := by
  cases x with
  | error r' =>
    intro h
    cases h
    exact hx rfl
  | ok a => exact hf a rfl

theorem foldlM_ne_error (hstep : ∀ a l s s', P (a :: l) s → f s a = .ok s' → P l s')
    (hround : ∀ a l s, P (a :: l) s → f s a ≠ .error r) :
    ∀ {l : List α} {s : σ}, P l s → l.foldlM f s ≠ .error r
  | [], _, _ => nofun
  | a :: l, s, hP => by
    rw [List.foldlM_cons]
    exact bind_ne_error (hround a l s hP) fun s' hs' =>
      foldlM_ne_error hstep hround (hstep a l s s' hP hs')

/-- The reason for which a computation has stopped, if it has. -/
def stopOf : Except ε α → Option ε
  | .error r => some r
  | .ok _ => none

theorem stopOf_eq_some : stopOf x = some r ↔ x = .error r := by
  cases x with
  | error r' => exact ⟨fun h => congrArg _ (Option.some_inj.mp h), fun h => by cases h; rfl⟩
  | ok a => exact ⟨nofun, nofun⟩

end Outcome
