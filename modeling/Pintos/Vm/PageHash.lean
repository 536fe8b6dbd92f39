import Pintos.Kernel.Hash
import Pintos.Vm.Observe

/-!
# Supplemental page tables as hash tables

The supplemental page table of a process is a hash table in `vm/page.c`, and a map from pages to
entries in `Vm`.  Here the one is a refinement of the other.

* `pageHashMachine` makes the calls that `page_insert`, `get_sup_pte` and `page_remove` make on the
  hash table, and `pageMachine` those functions as the other modules have them.
* `TableOf` says that a hash table is in order and holds the entries of a process.
* `page_calls_refine`: any calls on a new table return what they return in `Vm`, whatever becomes of
  the memory for new buckets.
-/

namespace Pintos

open Function (update)

/-- `page_hash` and `page_less`, on the page and the pointer of an entry. -/
def supPageFns : HashFns (Nat × Nat) := pageFns fun e => e.1 * pgsize

/-- A call on the table. -/
inductive PageCall
  /-- `get_sup_pte`. -/
  | get (upage : Nat)
  /-- `page_insert`. -/
  | insert (file : Option Nat) (fileOfs upage readBytes zeroBytes : Nat) (writable : Bool)
  /-- `page_remove`. -/
  | remove (upage : Nat)

/-- The calls on a hash table, with the pointer that is next from `malloc`.  A call gives the entry
that it finds, inserts or removes.  The entry that `get_sup_pte` and `page_remove` look for is one
on their stack, of which they set the page alone. -/
def pageHashMachine : Machine (Hash (Nat × Nat) × Nat) (PageCall × Bool) (Option Nat) where
  step s
    | (.get upage, _) => some ((hashFind supPageFns s.1 (upage, 0)).map Prod.snd, s)
    | (.insert _ _ upage _ _ _, memory) =>
      let r := hashInsert supPageFns memory s.1 (upage, s.2)
      some (if r.1 = none then (some s.2, r.2, s.2 + 1) else (none, r.2, s.2))
    | (.remove upage, memory) =>
      let r := hashDelete supPageFns memory s.1 (upage, 0)
      some (r.1.map Prod.snd, r.2, s.2)

/-- The calls on the table of the process `t`. -/
def pageMachine (t : Nat) : Machine Vm (PageCall × Bool) (Option Nat) where
  step st
    | (.get upage, _) => some (st.getSupPte t upage, st)
    | (.insert file fileOfs upage readBytes zeroBytes writable, _) =>
      let r := st.pageInsert t file fileOfs upage readBytes zeroBytes writable
      some (if r.1 then some st.nextSpte else none, r.2)
    | (.remove upage, _) => some (st.getSupPte t upage, st.pageRemove t upage)

theorem supPageFns_key {a b : Nat × Nat} : supPageFns.key a = supPageFns.key b ↔ a.1 = b.1 := by
  rw [HashFns.key_eq]
  simp only [HashFns.equal, supPageFns, pageFns, pgsize, Bool.and_eq_true, Bool.not_eq_true',
    decide_eq_false_iff_not]
  omega

/-- The entries of a process, by their keys. -/
def Vm.entries (st : Vm) (t : Nat) : Quotient supPageFns.setoid → Option (Nat × Nat) :=
  Quotient.lift (fun e => (st.getSupPte t e.1).map fun p => (e.1, p)) fun a b h => by
    rw [supPageFns_key.mp (Quotient.sound h : supPageFns.key a = supPageFns.key b)]

theorem Vm.entries_key (st : Vm) (t u e : Nat) :
    st.entries t (supPageFns.key (u, e)) = (st.getSupPte t u).map fun p => (u, p) := rfl

theorem Vm.snd_entries_key (st : Vm) (t u e : Nat) :
    (st.entries t (supPageFns.key (u, e))).map Prod.snd = st.getSupPte t u := by
  rw [entries_key, Option.map_map]
  exact congrFun Option.map_id _

/-- Entries that differ at one page differ at its key. -/
theorem Vm.entries_eq_update {st st' : Vm} {t u : Nat} (e : Nat) (new : Option Nat)
    (h : ∀ u', st'.getSupPte t u' = if u' = u then new else st.getSupPte t u') :
    st'.entries t =
      update (st.entries t) (supPageFns.key (u, e)) (new.map fun p => (u, p)) := by
  funext key
  induction key using Quotient.ind with
  | _ a =>
    show (st'.getSupPte t a.1).map _ = update (st.entries t) _ _ (supPageFns.key a)
    rw [h]
    by_cases hu : a.1 = u
    · have hkey : supPageFns.key a = supPageFns.key (u, e) := supPageFns_key.mpr hu
      rw [if_pos hu, hkey, Function.update_self, hu]
    · rw [if_neg hu, Function.update_of_ne (fun heq => hu (supPageFns_key.mp heq))]
      rfl

/-- A hash table is in order and holds the entries of the process `t`. -/
structure TableOf (t : Nat) (s : Hash (Nat × Nat) × Nat) (st : Vm) : Prop where
  process : (st.process t).isSome
  next : s.2 = st.nextSpte
  ok : HashOk supPageFns s.1
  holds : Holds supPageFns s.1 (st.entries t)

variable {t upage : Nat} {h : Hash (Nat × Nat)} {st : Vm}

theorem TableOf.get (ht : TableOf t (h, st.nextSpte) st) :
    (hashFind supPageFns h (upage, 0)).map Prod.snd = st.getSupPte t upage := by
  have hfind : hashFind supPageFns h (upage, 0) = _ := ht.ok.findElem_eq ht.holds (upage, 0)
  rw [hfind, Vm.snd_entries_key]

theorem TableOf.remove (ht : TableOf t (h, st.nextSpte) st) (memory : Bool) (upage : Nat) :
    (hashDelete supPageFns memory h (upage, 0)).1.map Prod.snd = st.getSupPte t upage ∧
      TableOf t ((hashDelete supPageFns memory h (upage, 0)).2, st.nextSpte)
        (st.pageRemove t upage) := by
  obtain ⟨hfound, hok, hholds⟩ := ht.ok.delete ht.holds memory (upage, 0)
  have hentries : (st.pageRemove t upage).entries t =
      update (st.entries t) (supPageFns.key (upage, 0)) none :=
    Vm.entries_eq_update 0 none fun u => by
      rw [Vm.getSupPte_pageRemove]
      simp only [true_and]
  refine ⟨?_, (Vm.isSome_process_modifyProcess ..).trans ht.process, rfl, hok, ?_⟩
  · rw [hfound, Vm.snd_entries_key]
  · rw [hentries]
    exact hholds

theorem TableOf.insert_old (ht : TableOf t (h, st.nextSpte) st) {e : Nat}
    (hold : st.getSupPte t upage = some e) (memory : Bool) :
    (hashInsert supPageFns memory h (upage, st.nextSpte)).1 ≠ none ∧
      TableOf t ((hashInsert supPageFns memory h (upage, st.nextSpte)).2, st.nextSpte) st := by
  obtain ⟨hfound, hok, hholds⟩ := ht.ok.insert ht.holds memory (upage, st.nextSpte)
  rw [Vm.entries_key, hold, Option.map_some] at hfound hholds
  exact ⟨hfound ▸ Option.some_ne_none _, ht.process, rfl, hok, hholds⟩

theorem TableOf.insert_new (ht : TableOf t (h, st.nextSpte) st) (spte : SupPte)
    (hnew : st.getSupPte t spte.upage = none) (memory : Bool) :
    (hashInsert supPageFns memory h (spte.upage, st.nextSpte)).1 = none ∧
      TableOf t ((hashInsert supPageFns memory h (spte.upage, st.nextSpte)).2, st.nextSpte + 1)
        (st.addSpte t spte) := by
  obtain ⟨hfound, hok, hholds⟩ := ht.ok.insert ht.holds memory (spte.upage, st.nextSpte)
  rw [Vm.entries_key, hnew, Option.map_none] at hfound hholds
  obtain ⟨p, hp⟩ := Option.isSome_iff_exists.mp ht.process
  have hentries : (st.addSpte t spte).entries t =
      update (st.entries t) (supPageFns.key (spte.upage, st.nextSpte))
        (some (spte.upage, st.nextSpte)) :=
    Vm.entries_eq_update st.nextSpte (some st.nextSpte) fun u => by
      rw [Vm.getSupPte_addSpte, hp]
      simp only [true_and, Option.map_some]
  refine ⟨hfound, (Vm.isSome_process_modifyProcess ..).trans ht.process, rfl, hok, ?_⟩
  rw [hentries]
  exact hholds

/-- **The calls of `vm/page.c`** on a hash table return what they return in `Vm`, and leave the
entries that they leave there. -/
theorem pageHashMachine_simulates (t : Nat) :
    pageHashMachine.Simulates (pageMachine t) (fun _ _ => True) (TableOf t) := by
  rintro ⟨h, next⟩ st ⟨call, memory⟩ o s' ht - hstep
  obtain rfl : next = st.nextSpte := ht.next
  cases call with
  | get upage =>
    cases hstep
    exact ⟨st, by rw [ht.get]; rfl, ht⟩
  | remove upage =>
    cases hstep
    obtain ⟨hfound, ht'⟩ := ht.remove memory upage
    exact ⟨_, by rw [hfound]; rfl, ht'⟩
  | insert file fileOfs upage readBytes zeroBytes writable =>
    have hstep := Option.some.inj hstep
    cases hget : st.getSupPte t upage with
    | some e =>
      obtain ⟨hfound, ht'⟩ := ht.insert_old hget memory
      cases (if_neg hfound).symm.trans hstep
      refine ⟨st, ?_, ht'⟩
      simp only [pageMachine, Vm.pageInsert_of_some hget, Bool.false_eq_true, if_false]
    | none =>
      obtain ⟨hfound, ht'⟩ := ht.insert_new
        (Vm.newSpte file fileOfs upage readBytes zeroBytes writable) hget memory
      cases (if_pos hfound).symm.trans hstep
      refine ⟨_, ?_, ht'⟩
      simp only [pageMachine, Vm.pageInsert_of_none hget, if_true]

/-- **A supplemental page table is a hash table.**  Whatever calls are made on the table of a new
process, with memory for new buckets or without, they return what they return in `Vm`. -/
theorem page_calls_refine {calls : List (PageCall × Bool)} {results : List (Option Nat)}
    {s : Hash (Nat × Nat) × Nat} (hprocess : (st.process t).isSome)
    (hempty : ∀ u, st.getSupPte t u = none)
    (hrun : pageHashMachine.run (hashInit, st.nextSpte) calls = some (results, s)) :
    ∃ st', (pageMachine t).run st calls = some (results, st') ∧ TableOf t s st' := by
  have hentries : st.entries t = fun _ => none := by
    funext key
    induction key using Quotient.ind with
    | _ a => exact congrArg (Option.map _) (hempty a.1)
  obtain ⟨hok, hholds⟩ := hashOk_init supPageFns
  exact (pageHashMachine_simulates t).run ⟨hprocess, rfl, hok, hentries ▸ hholds⟩
    (.of_forall (fun _ _ _ => trivial) _) hrun

end Pintos
