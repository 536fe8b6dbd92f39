import Mathlib.Data.List.Perm.Basic

/-!
# Elements in buckets

A collection kept as a list of buckets, in which every element has its place: `idx` says which
bucket it belongs into.  What the collection holds is the concatenation of the buckets, and changing
one bucket changes that by as much (`flatten_modify_perm`).  `Placed` says that the elements are
where they belong.

A search for an element looks at one bucket only.  That is enough for a property that has elements
of one bucket only, and the search has one possible answer if no two elements have the property
(`find?_eq_some_iff`).
-/

namespace Buckets

variable {α : Type} {i : Nat} {l : List α} {f : List α → List α}

/-- One bucket changes: what it held and what it holds now differ as the whole does. -/
theorem flatten_modify_perm {bs : List (List α)} {r s : List α} (hi : bs[i]? = some l)
    (h : (r ++ f l).Perm (s ++ l)) : (r ++ (bs.modify i f).flatten).Perm (s ++ bs.flatten) := by
  induction bs generalizing i with
  | nil => nomatch hi
  | cons b bs ih =>
    cases i with
    | zero =>
      obtain rfl : b = l := Option.some_inj.mp hi
      rw [List.modify_zero_cons, List.flatten_cons, List.flatten_cons, ← List.append_assoc,
        ← List.append_assoc]
      exact h.append_right _
    | succ i =>
      have hrest := (ih hi).append_left b
      have hswap : ∀ x y z : List α, (x ++ (y ++ z)).Perm (y ++ (x ++ z)) := fun x y z => by
        rw [← List.append_assoc, ← List.append_assoc]
        exact List.perm_append_comm.append_right z
      exact ((hswap r b _).trans hrest).trans (hswap b s _)

/-- Put an element into its bucket, at the front. -/
def push (idx : α → Nat) (bs : List (List α)) (e : α) : List (List α) :=
  bs.modify (idx e) (e :: ·)

/-- The elements are in the buckets they belong into. -/
def Placed (idx : α → Nat) (bs : List (List α)) : Prop :=
  ∀ {i : Nat} {l : List α}, bs[i]? = some l → ∀ e ∈ l, idx e = i

variable {idx : α → Nat} {bs : List (List α)} {e : α}

theorem length_push (idx : α → Nat) (bs : List (List α)) (e : α) :
    (push idx bs e).length = bs.length :=
  List.length_modify ..

theorem push_perm (h : idx e < bs.length) : (push idx bs e).flatten.Perm (e :: bs.flatten) :=
  flatten_modify_perm (r := []) (s := [e]) (List.getElem?_eq_getElem h) (.refl _)

theorem placed_replicate (idx : α → Nat) (n : Nat) : Placed idx (List.replicate n []) := by
  intro i l hl e he
  obtain rfl : l = [] := List.eq_of_mem_replicate (List.mem_of_getElem? hl)
  exact absurd he List.not_mem_nil

theorem Placed.modify (h : Placed idx bs)
    (hf : ∀ l e, bs[i]? = some l → e ∈ f l → e ∈ l ∨ idx e = i) : Placed idx (bs.modify i f) := by
  intro j l hl e he
  rw [List.getElem?_modify] at hl
  obtain ⟨l0, hl0, rfl⟩ := Option.map_eq_some_iff.mp hl
  split at he
  next heq =>
    subst heq
    exact (hf l0 e hl0 he).elim (h hl0 e) id
  next => exact h hl0 e he

theorem Placed.push (h : Placed idx bs) (e : α) : Placed idx (push idx bs e) :=
  h.modify fun _ _ _ hx => (List.mem_cons.mp hx).elim (fun heq => .inr (heq ▸ rfl)) .inl

theorem Placed.mem_iff (h : Placed idx bs) (hl : bs[i]? = some l) :
    e ∈ l ↔ e ∈ bs.flatten ∧ idx e = i := by
  constructor
  · intro he
    exact ⟨List.mem_flatten.mpr ⟨l, List.mem_of_getElem? hl, he⟩, h hl e he⟩
  · rintro ⟨he, rfl⟩
    obtain ⟨l', hl', he⟩ := List.mem_flatten.mp he
    obtain ⟨j, hj⟩ := List.mem_iff_getElem?.mp hl'
    obtain rfl := h hj e he
    rw [hl, Option.some_inj] at hj
    exact hj ▸ he

/-- **Moving everything** into new buckets loses nothing and places everything. -/
theorem foldl_push (es : List α) : ∀ (bs : List (List α)), (∀ e ∈ es, idx e < bs.length) →
    Placed idx bs → (es.foldl (push idx) bs).length = bs.length ∧
      (es.foldl (push idx) bs).flatten.Perm (es ++ bs.flatten) ∧
      Placed idx (es.foldl (push idx) bs) := by
  induction es with
  | nil => exact fun _ _ h => ⟨rfl, .refl _, h⟩
  | cons e es ih =>
    intro bs hlt h
    obtain ⟨he, hlt⟩ := List.forall_mem_cons.mp hlt
    obtain ⟨hlen, hperm, hplaced⟩ := ih (push idx bs e)
      (fun x hx => (length_push idx bs e).symm ▸ hlt x hx) (h.push e)
    refine ⟨hlen.trans (length_push idx bs e), hperm.trans ?_, hplaced⟩
    exact ((push_perm he).append_left es).trans List.perm_middle

theorem find?_eq_some_iff {p : α → Bool} (h : ∀ x ∈ l, ∀ y ∈ l, p x → p y → x = y) {x : α} :
    l.find? p = some x ↔ x ∈ l ∧ p x := by
  constructor
  · exact fun hfind => ⟨List.mem_of_find?_eq_some hfind, List.find?_some hfind⟩
  · rintro ⟨hx, hp⟩
    obtain ⟨y, hy⟩ := Option.isSome_iff_exists.mp (List.find?_isSome.mpr ⟨x, hx, hp⟩)
    rw [hy, h y (List.mem_of_find?_eq_some hy) x hx (List.find?_some hy) hp]

end Buckets
