import Mathlib.Tactic.Common

/-!
# Machines, their runs and their invariants

A system that is driven from outside, one input at a time, as a partial step function: in a state
it takes an input, if it can, and gives an output and the next state.  A step that fails an
assertion of the program is a step that cannot be taken.

* `Machine.run` feeds a list of inputs, and `Machine.Along G` says that every step of such a run
  meets the guard `G`, a condition on the state before the step and on its input.
* `Machine.Reach I G` are the states reached from those of `I` by steps that meet `G`.
  `Reach.invariant` is the induction over runs, done once: what holds at the start and is kept by
  every step that meets `G` holds of every state reached.
* `Machine.Simulates` relates a machine to one that says what it is for: along a relation kept by
  every guarded step, the two give the same outputs (`Simulates.run`).
-/

/-- A machine: in a state it may take an input, and then gives an output and the next state. -/
structure Machine (σ ι ο : Type) where
  /-- The step, which is `none` where the machine cannot take the input. -/
  step : σ → ι → Option (ο × σ)

namespace Machine

variable {σ τ ι ο : Type} {M : Machine σ ι ο} {I : σ → Prop} {G : σ → ι → Prop}

/-! ## Runs -/

/-- The outputs of a list of inputs, and the state they lead to. -/
def run (M : Machine σ ι ο) : σ → List ι → Option (List ο × σ)
  | s, [] => some ([], s)
  | s, i :: is => (M.step s i).bind fun r => (M.run r.2 is).map fun q => (r.1 :: q.1, q.2)

/-- Every step of the run meets the guard. -/
def Along (M : Machine σ ι ο) (G : σ → ι → Prop) : σ → List ι → Prop
  | _, [] => True
  | s, i :: is => G s i ∧ ∀ o s', M.step s i = some (o, s') → M.Along G s' is

variable {s s' : σ} {i : ι} {is : List ι} {os : List ο}

theorem run_cons_eq_some (h : M.run s (i :: is) = some (os, s')) :
    ∃ o t os', M.step s i = some (o, t) ∧ M.run t is = some (os', s') ∧ os = o :: os' := by
  rw [run, Option.bind_eq_some_iff] at h
  obtain ⟨⟨o, t⟩, hstep, hrest⟩ := h
  rw [Option.map_eq_some_iff] at hrest
  obtain ⟨⟨os', s''⟩, hrun, heq⟩ := hrest
  cases heq
  exact ⟨o, t, os', hstep, hrun, rfl⟩

variable {t : σ} {o : ο}

theorem run_cons_of_step (hstep : M.step s i = some (o, t)) (hrun : M.run t is = some (os, s')) :
    M.run s (i :: is) = some (o :: os, s') := by
  rw [run, hstep, Option.bind_some, hrun, Option.map_some]

theorem run_singleton (h : M.step s i = some (o, t)) : M.run s [i] = some ([o], t) :=
  run_cons_of_step h rfl

theorem run_append {js : List ι} {ps : List ο} (h : M.run s is = some (os, t))
    (h' : M.run t js = some (ps, s')) : M.run s (is ++ js) = some (os ++ ps, s') := by
  induction is generalizing s os with
  | nil =>
    cases h
    exact h'
  | cons i is ih =>
    obtain ⟨o, u, os', hstep, hrest, rfl⟩ := run_cons_eq_some h
    exact run_cons_of_step hstep (ih hrest)

theorem exists_run (h : ∀ s i, ∃ r, M.step s i = some r) (s : σ)
    (is : List ι) : ∃ r, M.run s is = some r := by
  induction is generalizing s with
  | nil => exact ⟨_, rfl⟩
  | cons i is ih =>
    obtain ⟨⟨o, t⟩, hstep⟩ := h s i
    obtain ⟨⟨os, s'⟩, hrun⟩ := ih t
    exact ⟨_, run_cons_of_step hstep hrun⟩

/-- A guard holds along a run if every step of it, from the state that the steps before it lead to,
meets the guard. -/
theorem Along.of_prefixes
    (h : ∀ pre i, pre ++ [i] <+: is → ∀ os t, M.run s pre = some (os, t) → G t i) :
    M.Along G s is := by
  induction is generalizing s with
  | nil => trivial
  | cons i is ih =>
    refine ⟨h [] i (by simp) [] s rfl, fun o t hstep => ih fun pre j hpre os u hrun => ?_⟩
    exact h (i :: pre) j (by simpa using hpre) (o :: os) u (run_cons_of_step hstep hrun)

theorem Along.initial : ∀ {is pre : List ι} {s : σ}, pre <+: is → M.Along G s is → M.Along G s pre
  | _, [], _, _, _ => trivial
  | [], _ :: _, _, hpre, _ => by simp at hpre
  | i :: is, j :: pre, s, hpre, h => by
    rw [List.cons_prefix_cons] at hpre
    obtain ⟨rfl, hpre⟩ := hpre
    exact ⟨h.1, fun o t hstep => (h.2 o t hstep).initial hpre⟩

/-- A condition on the inputs alone holds along every run of inputs that meet it. -/
theorem Along.of_forall : ∀ {is : List ι} (_ : ∀ i ∈ is, ∀ s, G s i) (s : σ), M.Along G s is
  | [], _, _ => trivial
  | i :: _, h, s =>
    ⟨h i (by simp) s, fun _ t _ => Along.of_forall (fun j hj => h j (by simp [hj])) t⟩

variable {H : σ → ι → Prop}

theorem Along.and :
    ∀ {is : List ι} {s : σ}, M.Along G s is → M.Along H s is →
      M.Along (fun s i => G s i ∧ H s i) s is
  | [], _, _, _ => trivial
  | _ :: _, _, hG, hH =>
    ⟨⟨hG.1, hH.1⟩, fun o t hstep => (hG.2 o t hstep).and (hH.2 o t hstep)⟩

/-- Whether the steps of a run meet a guard can be decided by running it. -/
instance decidableAlong [∀ s i, Decidable (G s i)] :
    ∀ (s : σ) (is : List ι), Decidable (M.Along G s is)
  | _, [] => .isTrue trivial
  | s, i :: is =>
    match hstep : M.step s i with
    | none => decidable_of_iff (G s i)
        ⟨fun h => ⟨h, fun _ _ hs => nomatch hstep.symm.trans hs⟩, And.left⟩
    | some (o, s') =>
      have : Decidable (M.Along G s' is) := decidableAlong s' is
      decidable_of_iff (G s i ∧ M.Along G s' is)
        ⟨fun h => ⟨h.1, fun _ _ hs => by cases hstep.symm.trans hs; exact h.2⟩,
          fun h => ⟨h.1, h.2 o s' hstep⟩⟩

/-! ## Reachable states -/

/-- The states reached from those of `I` by steps that meet `G`. -/
inductive Reach (M : Machine σ ι ο) (I : σ → Prop) (G : σ → ι → Prop) : σ → Prop
  /-- An initial state is reached. -/
  | init {s : σ} (h : I s) : Reach M I G s
  /-- A guarded step from a state that is reached leads to one. -/
  | step {s s' : σ} {i : ι} {o : ο} (h : Reach M I G s) (hG : G s i)
      (hs : M.step s i = some (o, s')) : Reach M I G s'

/-- **Invariants.**  What holds initially and is kept by every guarded step holds of every state
that is reached. -/
theorem Reach.invariant {P : σ → Prop} (hI : ∀ s, I s → P s)
    (hstep : ∀ s i o s', P s → G s i → M.step s i = some (o, s') → P s') {s : σ}
    (h : M.Reach I G s) : P s := by
  induction h with
  | init h => exact hI _ h
  | step _ hG hs ih => exact hstep _ _ _ _ ih hG hs

theorem Reach.of_run :
    ∀ {is : List ι} {os : List ο} {s s' : σ}, M.Reach I G s → M.Along G s is →
      M.run s is = some (os, s') → M.Reach I G s'
  | [], _, _, _, h, _, hrun => by
    rw [run] at hrun
    cases hrun
    exact h
  | _ :: _, _, _, _, h, halong, hrun => by
    obtain ⟨o, t, os', hstep, hrest, -⟩ := run_cons_eq_some hrun
    exact Reach.of_run (h.step halong.1 hstep) (halong.2 o t hstep) hrest

/-- **A run that is evaluated** leads from an initial state to one that is reached, and of which
what has been computed holds. -/
theorem exists_reach_along (M : Machine σ ι ο) (hI : I s) (is : List ι) (P : σ → Prop)
    [DecidablePred P] (halong : M.Along G s is)
    (heval : (M.run s is).any (fun r => decide (P r.2)) = true) : ∃ s', M.Reach I G s' ∧ P s' := by
  obtain ⟨⟨os, s'⟩, hrun, hP⟩ := (Option.any_eq_true ..).mp heval
  exact ⟨s', .of_run (.init hI) halong hrun, of_decide_eq_true hP⟩

theorem exists_reach (M : Machine σ ι ο) (hI : I s) (is : List ι) (P : σ → Prop) [DecidablePred P]
    (heval : (M.run s is).any (fun r => decide (P r.2)) = true) :
    ∃ s', M.Reach I (fun _ _ => True) s' ∧ P s' :=
  M.exists_reach_along hI is P (.of_forall (fun _ _ _ => trivial) s) heval

/-- A guard may be replaced by one that it implies in the states that are reached. -/
theorem Reach.of_imp (himp : ∀ s i, M.Reach I G s → G s i → H s i) (h : M.Reach I G s) :
    M.Reach I H s := by
  induction h with
  | init h => exact .init h
  | step h hG hs ih => exact ih.step (himp _ _ h hG) hs

/-! ## Simulation -/

/-- `R` is kept by the guarded steps of `M`, which `N` answers with the same outputs. -/
def Simulates (M : Machine σ ι ο) (N : Machine τ ι ο) (G : σ → ι → Prop) (R : σ → τ → Prop) :
    Prop :=
  ∀ s t i o s', R s t → G s i → M.step s i = some (o, s') →
    ∃ t', N.step t i = some (o, t') ∧ R s' t'

/-- **Simulation carries over to runs**: related states give the same outputs, and lead to related
states. -/
theorem Simulates.run {N : Machine τ ι ο} {R : σ → τ → Prop} (h : Simulates M N G R) :
    ∀ {is : List ι} {os : List ο} {s s' : σ} {t : τ}, R s t → M.Along G s is →
      M.run s is = some (os, s') → ∃ t', N.run t is = some (os, t') ∧ R s' t'
  | [], _, _, _, t, hR, _, hrun => by
    rw [Machine.run] at hrun
    cases hrun
    exact ⟨t, rfl, hR⟩
  | i :: is, _, s, _, t, hR, halong, hrun => by
    obtain ⟨o, u, os', hstep, hrest, rfl⟩ := run_cons_eq_some hrun
    obtain ⟨t', ht', hR'⟩ := h s t i o u hR halong.1 hstep
    obtain ⟨t'', ht'', hR''⟩ := Simulates.run h hR' (halong.2 o u hstep) hrest
    exact ⟨t'', run_cons_of_step ht' ht'', hR''⟩

end Machine
