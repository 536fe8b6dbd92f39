import Pintos.Userprog.HandOff

/-!
# Children that outlive their parent

Every process has a family of its own, so the processes together are a tree of families, and a
thread is a child in one of them and the parent in another.  A turn of the tree is a turn of one
family, by a thread that has not died, or one of the two ends of a thread: it dies in `thread_exit`,
which frees its `child_list`, and `schedule_tail` destroys it, by freeing the page with its
`struct thread`, when the next thread runs.

`parent_process` is set when a thread is created, and never again.  The hand-off of `start_process`
and all of `exit_process` work on the thread that it points at.

* `Forest` is the state, and `forestMachine` takes the turns.  A turn inside a family is one of
  `familyMachine`.
* `OrphanSafe` says that a thread in its hand-off or in `exit_process` has a parent that is not
  destroyed.
* `Outlives` is the condition that makes it so: no thread is destroyed while one that it created is
  alive.  `orphan_safe` says so for every run, and `orphan_unsafe` that the kernel does not see to
  the condition: it is enough that a process exits before its child does.
-/

namespace Pintos

open Function (update update_apply)

/-! ## The state -/

/-- How far a thread has come. -/
inductive Stage where
  /-- There is no such thread yet. -/
  | unborn
  /-- Its status is not `THREAD_DYING`. -/
  | alive
  /-- It has called `schedule` for the last time. -/
  | dying
  /-- Its page is free. -/
  | destroyed
deriving DecidableEq, Repr

/-- The processes. -/
structure Forest where
  family : Nat → Family
  parent : Nat → Nat
  stage : Nat → Stage
  /-- The identifier of the next thread. -/
  nextTid : Nat

/-- `initial_thread`, which is its own `parent_process`. -/
def initialTid : Nat := 1

/-- A turn. -/
inductive ForestTurn where
  /-- A turn in the family of `p`. -/
  | inside (p : Nat) (t : Turn)
  /-- The end of `thread_exit`. -/
  | die (c : Nat)
  /-- `schedule_tail`, in the thread that runs after `c`. -/
  | destroy (c : Nat)
deriving DecidableEq, Repr

/-! ## The machine -/

/-- The child whose turn it is, if it is not the parent's. -/
def Turn.child : Turn → Option Nat
  | .load c _ | .exit c _ | .kid c => some c
  | _ => none

/-- The family of a thread that was just created. -/
def Family.empty : Family :=
  ⟨.idle, false, [], 0, false, [], fun _ => .unborn, 0, fun _ => none, fun _ => none, [],
    fun _ => .opened⟩

namespace Forest

/-- Where a thread is, as a child. -/
def life (st : Forest) (c : Nat) : KidPc := (st.family (st.parent c)).kid c

/-- The thread can take the turn in the family of `p`: a child of `p` that is alive, or `p` itself
while it runs. -/
def Acts (st : Forest) (p : Nat) (t : Turn) : Prop :=
  match t.child with
  | some c => st.stage c = .alive ∧ st.parent c = p
  | none => st.stage p = .alive ∧ st.life p = .running

instance (st : Forest) (p : Nat) (t : Turn) : Decidable (st.Acts p t) :=
  match hc : t.child with
  | some c => decidable_of_iff (st.stage c = .alive ∧ st.parent c = p) (by rw [Acts, hc])
  | none => decidable_of_iff (st.stage p = .alive ∧ st.life p = .running) (by rw [Acts, hc])

/-- The family of `p` has taken a turn, and has become `f`. -/
def put (st : Forest) (p : Nat) (f : Family) : Forest :=
  { st with family := update st.family p f, nextTid := f.nextTid }

/-- `thread_create`: the new thread has `p` for its parent, and no children. -/
def create (st : Forest) (p c : Nat) : Forest :=
  { st with
    family := update st.family c .empty
    parent := update st.parent c p
    stage := update st.stage c .alive }

end Forest

/-- The processes, one statement at a time. -/
def forestMachine : Machine Forest ForestTurn (Option FamilyEvent) where
  step st
    | .inside p t =>
      if st.Acts p t then
        (familyMachine.step { st.family p with nextTid := st.nextTid } t).map fun r =>
          (r.1, match t with
            | .execute true => (st.create p st.nextTid).put p r.2
            | _ => st.put p r.2)
      else none
    | .die c =>
      match st.stage c, st.life c with
      | .alive, .exited status =>
        -- `process_exit` has found that `exit_code` is set
        if status = -2 then none
        else some (none, { st with
          family := update st.family c { st.family c with childList := [] }
          stage := update st.stage c .dying })
      | _, _ => none
    | .destroy c =>
      if st.stage c = .dying ∧ c ≠ initialTid then
        some (none, { st with stage := update st.stage c .destroyed })
      else none

/-- Only `initial_thread` runs. -/
def Forest.Fresh (st : Forest) : Prop :=
  (∀ c, st.stage c = if c = initialTid then .alive else .unborn) ∧
    st.parent initialTid = initialTid ∧ st.life initialTid = .running ∧
    (st.family initialTid).childList = [] ∧ initialTid < st.nextTid

/-! ## The property and the condition -/

/-- The child is at a statement of the hand-off of `start_process` or of `exit_process`, or about to
call `exit_process` from `process_exit`. -/
def KidPc.usesParent : KidPc → Bool
  | .unborn | .loading | .running => false
  | .exited status => status == -2
  | _ => true

/-- The thread whose turn it is works on its parent. -/
def Forest.Uses (st : Forest) (c : Nat) : Turn → Prop
  | .exit d _ => d = c
  | .kid d => d = c ∧ (st.life c).usesParent
  | _ => False

/-- A thread that works on its parent has one that is not destroyed. -/
def OrphanSafe (st : Forest) (turn : ForestTurn) : Prop :=
  ∀ p t c, turn = .inside p t → st.Uses c t → st.stage (st.parent c) ≠ .destroyed

/-- No thread is destroyed while one that it created is alive. -/
def Outlives (st : Forest) : ForestTurn → Prop
  | .destroy p => ∀ c, c ≠ p → st.parent c = p → st.stage c ≠ .alive
  | _ => True

/-! ## Runs -/

section Runs

variable {st st' : Forest} {turn : ForestTurn} {event : Option FamilyEvent}

/-- The parents of the threads alive are not destroyed. -/
def Forest.Rooted (st : Forest) : Prop :=
  ∀ c, st.stage c = .alive → st.stage (st.parent c) ≠ .destroyed

/-- What a turn does to the tree: it leaves it, or creates a child of a thread alive, or takes a
thread one stage on. -/
theorem forest_step_cases (h : forestMachine.step st turn = some (event, st')) :
    (st'.stage = st.stage ∧ st'.parent = st.parent) ∨
    (∃ p, st.stage p = .alive ∧ st'.stage = update st.stage st.nextTid .alive ∧
      st'.parent = update st.parent st.nextTid p) ∨
    (∃ c, st.stage c = .alive ∧ st'.stage = update st.stage c .dying ∧ st'.parent = st.parent) ∨
    ∃ c, turn = .destroy c ∧ st.stage c = .dying ∧
      st'.stage = update st.stage c .destroyed ∧ st'.parent = st.parent := by
  cases turn with
  | inside p t =>
    obtain ⟨hacts, hmap⟩ := Option.ite_none_right_eq_some.mp h
    obtain ⟨r, hstep, heq⟩ := Option.map_eq_some_iff.mp hmap
    cases heq
    split
    · exact .inr (.inl ⟨p, hacts.1, rfl, rfl⟩)
    · exact .inl ⟨rfl, rfl⟩
  | die c =>
    simp only [forestMachine] at h
    split at h
    · rename_i halive _
      obtain ⟨-, heq⟩ := Option.ite_none_left_eq_some.mp h
      cases heq
      exact .inr (.inr (.inl ⟨c, halive, rfl, rfl⟩))
    · cases h
  | destroy c =>
    obtain ⟨⟨hdying, -⟩, heq⟩ := Option.ite_none_right_eq_some.mp h
    cases heq
    exact .inr (.inr (.inr ⟨c, rfl, hdying, rfl, rfl⟩))

theorem rooted_of_fresh (h : st.Fresh) : st.Rooted := by
  obtain ⟨hstage, -⟩ := h
  intro c _
  rw [hstage]
  split <;> simp

/-- **A turn** that destroys no thread with a child alive keeps the parents of the others. -/
theorem rooted_step (h : st.Rooted) (hout : Outlives st turn)
    (hstep : forestMachine.step st turn = some (event, st')) : st'.Rooted := by
  intro c hc
  obtain ⟨hs, hp⟩ | ⟨p, hp, hs, hpar⟩ | ⟨d, hd, hs, hp⟩ | ⟨d, rfl, hd, hs, hp⟩ :=
    forest_step_cases hstep
  · rw [hs] at hc ⊢
    rw [hp]
    exact h c hc
  · -- the parent of the new thread is alive, and those of the others are as before
    have hnew : ∀ q, st.stage q ≠ .destroyed → st'.stage q ≠ .destroyed := fun q hq => by
      rw [hs, update_apply]
      split <;> simp [hq]
    rw [hs, update_apply] at hc
    rw [hpar, update_apply]
    split at hc
    · rename_i heq
      rw [if_pos heq]
      exact hnew p (by simp [hp])
    · rename_i hne
      rw [if_neg hne]
      exact hnew _ (h c hc)
  · rw [hs, update_apply] at hc
    rw [hs, hp, update_apply]
    split at hc
    · cases hc
    · split
      · simp
      · exact h c hc
  · rw [hs, update_apply] at hc
    rw [hs, hp, update_apply]
    split at hc
    · cases hc
    · rename_i hne
      rw [if_neg fun heq => hout c hne heq hc]
      exact h c hc

theorem alive_of_uses {p c : Nat} {t : Turn}
    (hstep : forestMachine.step st (.inside p t) = some (event, st')) (huses : st.Uses c t) :
    st.stage c = .alive := by
  obtain ⟨hacts, -⟩ := Option.ite_none_right_eq_some.mp hstep
  cases t <;> simp only [Forest.Uses] at huses
  case exit => exact huses ▸ hacts.1
  case kid => exact huses.1 ▸ hacts.1

end Runs

/-- **Orphans.**  From the start, by turns that destroy no thread while one that it created is
alive, every thread in its hand-off or in `exit_process` finds its parent. -/
theorem orphan_safe {st st' : Forest} {turn : ForestTurn} {event : Option FamilyEvent}
    (h : forestMachine.Reach Forest.Fresh Outlives st)
    (hstep : forestMachine.step st turn = some (event, st')) : OrphanSafe st turn := by
  have hrooted : st.Rooted := h.invariant (fun _ hfresh => rooted_of_fresh hfresh)
    fun _ _ _ _ hinv hout hs => rooted_step hinv hout hs
  rintro p t c rfl huses
  exact hrooted c (alive_of_uses hstep huses)

/-- Before the first process. -/
def Forest.first : Forest where
  family c := if c = initialTid then
      { Family.empty with kid := fun c => if c = initialTid then .running else .unborn }
    else .empty
  parent _ := initialTid
  stage c := if c = initialTid then .alive else .unborn
  nextTid := 3

theorem Forest.fresh_first : Forest.first.Fresh := ⟨fun _ => rfl, rfl, rfl, rfl, by decide⟩

/-- The first process, thread 3, executes a child, thread 4, which is loaded and runs. -/
def execTwo : List ForestTurn :=
  [.inside 1 (.execute true), .inside 1 (.load 3 true), .inside 1 (.kid 3), .inside 1 (.kid 3),
    .inside 3 (.execute true), .inside 3 (.load 4 true), .inside 3 (.kid 4), .inside 3 (.kid 4),
    .inside 3 .parent, .inside 3 .parent]

theorem orphan_safe_executed : ∃ os st st', forestMachine.run .first execTwo = some (os, st) ∧
    forestMachine.step st (.inside 3 (.exit 4 0)) = some (none, st') ∧
    st.Uses 4 (.exit 4 0) ∧ OrphanSafe st (.inside 3 (.exit 4 0)) := by
  have hrun : ∃ os st st', forestMachine.run .first execTwo = some (os, st) ∧
      forestMachine.step st (.inside 3 (.exit 4 0)) = some (none, st') :=
    ⟨_, _, _, rfl, rfl⟩
  obtain ⟨os, st, st', hrun, hstep⟩ := hrun
  have halong : forestMachine.Along Outlives .first execTwo :=
    .of_forall (by simp [execTwo, Outlives]) _
  exact ⟨os, st, st', hrun, hstep, rfl,
    orphan_safe (.of_run (.init Forest.fresh_first) halong hrun) hstep⟩

/-- The first process exits and is destroyed. -/
def exitFirst : List ForestTurn :=
  [.inside 1 (.exit 3 0)] ++ List.replicate 7 (.inside 1 (.kid 3)) ++ [.die 3, .destroy 3]

/-- **A child that outlives its parent.**  The first process exits before its child does, and the
child then calls `exit_process`, which works on the `child_list` of a thread that is destroyed. -/
theorem orphan_unsafe : ∃ os st st',
    forestMachine.run .first (execTwo ++ exitFirst) = some (os, st) ∧
    forestMachine.step st (.inside 3 (.exit 4 0)) = some (none, st') ∧
    st.parent 4 = 3 ∧ st.stage 3 = .destroyed ∧ ¬ OrphanSafe st (.inside 3 (.exit 4 0)) := by
  refine ⟨_, _, _, rfl, rfl, rfl, rfl, fun h => ?_⟩
  exact h 3 (.exit 4 0) 4 rfl rfl rfl

end Pintos
