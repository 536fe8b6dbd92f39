import Mathlib.Order.BooleanAlgebra.Set
import Pintos.Lib.Machine

/-!
# Programs that take locks

A `Prog` takes and releases locks, asks questions of the rest of the system, and ends.  What it asks
and what the answers are is a parameter, so that the same program can be run by itself, against a
fixed set of answers, and together with others, against a state that they share.

* `Prog.run` runs one program by itself, from the locks it holds.  What it is answered may depend on
  what it has asked before.
* `System` runs any number of programs.  A question can be answered, or lead the program into other
  code first, as an access to memory leads into the handler of a page fault.
* `Discipline.Safe` is the usual discipline: locks have ranks, and a program takes only locks of
  higher rank than those it may hold.  `State.Safe.step` keeps it along every step, and then no
  program waits for a lock that it holds, nor for one that comes before another that it holds.
-/

namespace Locks

open Function (update update_apply update_of_ne update_self)

/-- A program that takes locks of type `L`, asks questions of type `Q` and ends with an `E`. -/
inductive Prog (L Q E : Type) (A : Q → Type) : Type
  /-- The end. -/
  | fin (e : E)
  /-- Take a lock. -/
  | acquire (l : L) (next : Prog L Q E A)
  /-- Give a lock back. -/
  | release (l : L) (next : Prog L Q E A)
  /-- Ask a question. -/
  | ask (q : Q) (next : A q → Prog L Q E A)

variable {L Q E : Type} {A : Q → Type}

/-- The lock that a program asks for now. -/
def Prog.wants : Prog L Q E A → Option L
  | .acquire l _ => some l
  | .fin _ | .release _ _ | .ask _ _ => none

/-- The question that it asks now. -/
def Prog.asks : Prog L Q E A → Option Q
  | .ask q _ => some q
  | .fin _ | .acquire _ _ | .release _ _ => none

/-- The end that it has come to. -/
def Prog.ended : Prog L Q E A → Option E
  | .fin e => some e
  | .acquire _ _ | .release _ _ | .ask _ _ => none

/-! ## One program -/

section Run

variable [DecidableEq L]

/-- How a program ends. -/
structure Outcome (L Q E : Type) where
  ending : E
  held : List L
  /-- The questions that have been answered. -/
  asked : List Q
deriving DecidableEq, Repr

variable {σ : Type} (fail : E) (answer : σ → (q : Q) → Except E (A q)) (after : σ → Q → σ)

/-- Run a program that holds the locks `held`, from a state that the answers depend on and that a
question changes.  An answer may end it.  It fails if it takes a lock that it holds or gives one
back that it does not. -/
def Prog.run : Prog L Q E A → σ → List L → Outcome L Q E
  | .fin e, _, held => ⟨e, held, []⟩
  | .acquire l next, s, held => if l ∈ held then ⟨fail, held, []⟩ else next.run s (l :: held)
  | .release l next, s, held => if l ∈ held then next.run s (held.erase l) else ⟨fail, held, []⟩
  | .ask q next, s, held =>
    match answer s q with
    | .error e => ⟨e, held, []⟩
    | .ok a =>
      let outcome := (next a).run (after s q) held
      { outcome with asked := q :: outcome.asked }

variable {fail answer after} {l : L} {held : List L} {q : Q} {s : σ}

theorem Prog.run_acquire (h : l ∉ held) (next : Prog L Q E A) :
    (Prog.acquire l next).run fail answer after s held =
      next.run fail answer after s (l :: held) := if_neg h

theorem Prog.run_release (next : Prog L Q E A) :
    (Prog.release l next).run fail answer after s (l :: held) =
      next.run fail answer after s held := by
  rw [Prog.run, if_pos (.head _), List.erase_cons_head]

theorem Prog.run_ask_ok {a : A q} (h : answer s q = .ok a) (next : A q → Prog L Q E A) :
    (Prog.ask q next).run fail answer after s held =
      { (next a).run fail answer after (after s q) held with
        asked := q :: ((next a).run fail answer after (after s q) held).asked } := by
  rw [Prog.run, h]

theorem Prog.run_ask_error {e : E} (h : answer s q = .error e) (next : A q → Prog L Q E A) :
    (Prog.ask q next).run fail answer after s held = ⟨e, held, []⟩ := by
  rw [Prog.run, h]

end Run

/-! ## Many programs -/

/-- What a question leads to. -/
inductive Reply (L Q E : Type) (A : Q → Type) (q : Q) : Type
  /-- An answer. -/
  | answer (a : A q)
  /-- Other code, in front of what the program has left to do. -/
  | trap (code : Prog L Q E A → Prog L Q E A)

/-- A system of programs that share a state of type `σ`.  Every step has an input of type `ι`. -/
structure System (L Q E : Type) (A : Q → Type) (σ ι : Type) where
  /-- What a question of a program leads to. -/
  respond : σ → Nat → (q : Q) → ι → Option (Reply L Q E A q × σ)
  /-- What is run after a program has ended. -/
  resume : σ → Nat → E → ι → Option (Prog L Q E A × σ)
  fail : E

/-- The state of a system. -/
structure State (L Q E : Type) (A : Q → Type) (σ : Type) where
  shared : σ
  holder : L → Option Nat
  /-- What each program has left to do. -/
  prog : Nat → Prog L Q E A

variable {σ ι : Type}

/-- The locks that a program holds. -/
def State.held (st : State L Q E A σ) (t : Nat) : Set L := {l | st.holder l = some t}

/-- A program goes on. -/
def State.goOn (st : State L Q E A σ) (t : Nat) (p : Prog L Q E A) : State L Q E A σ :=
  { st with prog := update st.prog t p }

/-- The programs of a system take turns.  One that waits for a lock of another has no turn. -/
def System.machine [DecidableEq L] (S : System L Q E A σ ι) :
    Machine (State L Q E A σ) (Nat × ι) Unit where
  step st i :=
    match st.prog i.1 with
    | .fin e =>
      (S.resume st.shared i.1 e i.2).map fun (p, shared) =>
        ((), { st with shared := shared }.goOn i.1 p)
    | .acquire l next =>
      match st.holder l with
      | none => some ((), { st with holder := update st.holder l (some i.1) }.goOn i.1 next)
      | some t => if t = i.1 then some ((), st.goOn i.1 (.fin S.fail)) else none
    | .release l next =>
      if st.holder l = some i.1 then
        some ((), { st with holder := update st.holder l none }.goOn i.1 next)
      else some ((), st.goOn i.1 (.fin S.fail))
    | .ask q next =>
      (S.respond st.shared i.1 q i.2).map fun (reply, shared) =>
        ((), { st with shared := shared }.goOn i.1 <|
          match reply with
          | .answer a => next a
          | .trap code => code (.ask q next))

/-! ## The discipline -/

/-- A discipline for programs that take locks. -/
structure Discipline (L Q E : Type) (A : Q → Type) where
  /-- Locks are taken in the order of their ranks. -/
  rank : L → Nat
  /-- The question may be asked by a program that holds these locks. -/
  asks : Set L → Q → Prop
  /-- The answer may be given to a program that holds these locks. -/
  good : Set L → (q : Q) → A q → Prop
  /-- A program that holds these locks may end so. -/
  ends : Set L → E → Prop
  /-- What may be asked with more locks may be asked with less. -/
  asks_mono : ∀ {h h' q}, h' ⊆ h → asks h q → asks h' q
  ends_mono : ∀ {h h' e}, h' ⊆ h → ends h e → ends h' e

variable {D : Discipline L Q E A}

/-- **A safe program**, which holds no more than the locks of `h`. -/
def Discipline.Safe (D : Discipline L Q E A) : Set L → Prog L Q E A → Prop
  | h, .fin e => D.ends h e
  | h, .acquire l next => (∀ l' ∈ h, D.rank l' < D.rank l) ∧ D.Safe (insert l h) next
  | h, .release l next => D.Safe (h \ {l}) next
  | h, .ask q next => D.asks h q ∧ ∀ h' ⊆ h, ∀ a, D.good h' q a → D.Safe h' (next a)

variable {p : Prog L Q E A} {h : Set L} {q : Q}

theorem Discipline.Safe.mono {h' : Set L} (hp : D.Safe h p) (hsub : h' ⊆ h) : D.Safe h' p := by
  induction p generalizing h h' with
  | fin e => exact D.ends_mono hsub hp
  | acquire l next ih =>
    exact ⟨fun l' hl' => hp.1 l' (hsub hl'), ih hp.2 (Set.insert_subset_insert hsub)⟩
  | release l next ih => exact ih hp (Set.sdiff_subset_sdiff_left hsub)
  | ask q next ih =>
    exact ⟨D.asks_mono hsub hp.1, fun h'' hsub'' a ha => hp.2 h'' (hsub''.trans hsub) a ha⟩

theorem Discipline.Safe.ask {next : A q → Prog L Q E A} (hq : D.asks h q)
    (hnext : ∀ a, D.Safe h (next a)) : D.Safe h (.ask q next) :=
  ⟨hq, fun _ hsub a _ => (hnext a).mono hsub⟩

theorem Discipline.Safe.asks (hp : D.Safe h p) (hasks : p.asks = some q) : D.asks h q := by
  cases p with
  | ask q' next =>
    cases hasks
    exact hp.1
  | fin | acquire | release => nomatch hasks

theorem Discipline.Safe.ends {e : E} (hp : D.Safe h p) (hended : p.ended = some e) :
    D.ends h e := by
  cases p with
  | fin e' =>
    cases hended
    exact hp
  | ask | acquire | release => nomatch hended

/-- **All programs are safe**, with the locks that they hold. -/
def State.Safe (D : Discipline L Q E A) (st : State L Q E A σ) : Prop :=
  ∀ t, D.Safe (st.held t) (st.prog t)

variable {st : State L Q E A σ} {t : Nat}

/-- No program waits for a lock that it holds, or for one that comes before another it holds. -/
theorem State.Safe.rank_lt (h : st.Safe D) {l l' : L} (hwants : (st.prog t).wants = some l)
    (hholds : st.holder l' = some t) : D.rank l' < D.rank l := by
  have ht := h t
  cases hprog : st.prog t with
  | acquire l1 next =>
    rw [hprog] at hwants ht
    cases hwants
    exact ht.1 l' hholds
  | _ => rw [hprog] at hwants; nomatch hwants

/-- The step is one that the discipline allows. -/
structure System.Allows (S : System L Q E A σ ι) (D : Discipline L Q E A) (st : State L Q E A σ)
    (t : Nat) (i : ι) : Prop where
  good : ∀ {q next a shared}, st.prog t = .ask q next →
    S.respond st.shared t q i = some (.answer a, shared) → D.good (st.held t) q a
  /-- Code that a question leads into is safe. -/
  trap : ∀ {q next code shared}, st.prog t = .ask q next →
    S.respond st.shared t q i = some (.trap code, shared) → D.asks (st.held t) q →
    D.Safe (st.held t) (.ask q next) → D.Safe (st.held t) (code (.ask q next))
  /-- So is what is run after the end. -/
  resume : ∀ {e p shared}, st.prog t = .fin e →
    S.resume st.shared t e i = some (p, shared) → D.ends (st.held t) e → D.Safe (st.held t) p

variable {S : System L Q E A σ ι}

/-- One program goes on, and the others hold no locks that they did not hold. -/
theorem State.Safe.goOn {st1 : State L Q E A σ} (h : st.Safe D) (hprog : st1.prog = st.prog)
    (hheld : ∀ u, u ≠ t → st1.held u ⊆ st.held u) (hsafe : D.Safe (st1.held t) p) :
    (st1.goOn t p).Safe D := fun u => by
  show D.Safe (st1.held u) (update st1.prog t p u)
  by_cases heq : u = t
  · subst heq
    rw [update_self]
    exact hsafe
  · rw [update_of_ne heq, hprog]
    exact (h u).mono (hheld u heq)

section Step

variable [DecidableEq L] {st st' : State L Q E A σ} {i : Nat × ι} {o : Unit}

theorem State.held_update_some (st : State L Q E A σ) (l : L) (t u : Nat) :
    { st with holder := update st.holder l (some t) }.held u ⊆
      {l' | (l' = l ∧ u = t) ∨ l' ∈ st.held u} := fun l' hl' => by
  have hl' : update st.holder l (some t) l' = some u := hl'
  rw [update_apply] at hl'
  split at hl'
  next heq => exact .inl ⟨heq, (Option.some_inj.mp hl').symm⟩
  next => exact .inr hl'

theorem State.held_update_none (st : State L Q E A σ) (l : L) (u : Nat) :
    { st with holder := update st.holder l none }.held u ⊆ st.held u \ {l} :=
  fun l' hl' => by
    have hl' : update st.holder l none l' = some u := hl'
    rw [update_apply] at hl'
    split at hl'
    next => cases hl'
    next hne => exact ⟨hl', hne⟩

/-- **Every step keeps all programs safe**, if the discipline allows it. -/
theorem State.Safe.step (h : st.Safe D) (hfail : ∀ h, D.ends h S.fail) (hi : S.Allows D st i.1 i.2)
    (hst : S.machine.step st i = some (o, st')) : st'.Safe D := by
  have ht := h i.1
  have hfails : (st.goOn i.1 (.fin S.fail)).Safe D := h.goOn rfl (fun _ _ => subset_rfl) (hfail _)
  simp only [System.machine] at hst
  split at hst
  next e heq =>
    obtain ⟨⟨p, shared⟩, hres, hst⟩ := Option.map_eq_some_iff.mp hst
    cases hst
    rw [heq] at ht
    exact h.goOn rfl (fun _ _ => subset_rfl) (hi.resume heq hres ht)
  next l next heq =>
    rw [heq] at ht
    split at hst
    next =>
      cases hst
      refine h.goOn rfl (fun u hu l' hl' => ?_) (ht.2.mono fun l' hl' => ?_)
      · exact (st.held_update_some l i.1 u hl').resolve_left fun hlu => hu hlu.2
      · exact (st.held_update_some l i.1 i.1 hl').imp_left And.left
    next =>
      split at hst
      · cases hst
        exact hfails
      · cases hst
  next l next heq =>
    rw [heq] at ht
    split at hst
    · cases hst
      exact h.goOn rfl (fun u _ => (st.held_update_none l u).trans Set.sdiff_subset)
        (Discipline.Safe.mono ht (st.held_update_none l i.1))
    · cases hst
      exact hfails
  next q next heq =>
    rw [heq] at ht
    obtain ⟨⟨reply, shared⟩, hresp, hst⟩ := Option.map_eq_some_iff.mp hst
    cases hst
    refine h.goOn rfl (fun _ _ => subset_rfl) ?_
    cases reply with
    | answer a => exact ht.2 _ subset_rfl a (hi.good heq hresp)
    | trap code => exact hi.trap heq hresp ht.1 ht

end Step

end Locks
