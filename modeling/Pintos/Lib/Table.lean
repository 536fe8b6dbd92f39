import Mathlib.Data.List.Nodup

/-!
# Tables of slots

A table is a list of slots, each unused or holding a key with its value: the entries of a directory,
the lines of a register, the cells of an open hash table.  A key is stored in any slot that is
unused, or in a new one at the end, and its slot is unused again once it is removed.  So a table has
holes, and says nothing about the order in which its keys came.

`Represents l m` says that the table `l` holds the map `m`: what a slot holds is in the map, what is
in the map is in a slot, and no key is in two slots.  `Represents.add` and `Represents.remove` are
the two ways in which a table changes.  `keys` lists the keys in the order of their slots; each one
comes once (`Represents.nodup_keys`, `Represents.mem_keys`).
-/

namespace Table

open Function (update update_of_ne update_self)

variable {α K V : Type} {i : Nat}

/-! ## Storing in a slot -/

/-- Store `x` in slot `i`, or in a new slot if `i` is the end of the table. -/
def put (l : List α) (i : Nat) (x : α) : List α := l.take i ++ x :: l.drop (i + 1)

theorem getElem?_put {l : List α} (h : i ≤ l.length) (x : α) (j : Nat) :
    (put l i x)[j]? = if j = i then some x else l[j]? := by
  have hlen : (l.take i).length = i := List.length_take_of_le h
  rcases Nat.lt_trichotomy j i with hlt | rfl | hlt
  · rw [if_neg (Nat.ne_of_lt hlt), put, List.getElem?_append_left (hlen.symm ▸ hlt),
      List.getElem?_take_of_lt hlt]
  · rw [if_pos rfl, put, List.getElem?_append_right (Nat.le_of_eq hlen), hlen, Nat.sub_self]
    rfl
  · obtain ⟨c, rfl⟩ := Nat.exists_eq_add_of_lt hlt
    rw [if_neg (Nat.ne_of_gt hlt), put, List.getElem?_append_right (hlen.symm ▸ Nat.le_of_lt hlt),
      hlen, show i + c + 1 - i = c + 1 by omega, List.getElem?_cons_succ, List.getElem?_drop]
    exact congrArg (l[·]?) (by omega)

theorem le_length_put (l : List α) (i : Nat) (x : α) : l.length ≤ (put l i x).length := by
  rw [put, List.length_append, List.length_cons, List.length_take, List.length_drop]
  omega

theorem map_put {β : Type} (f : α → β) (l : List α) (i : Nat) (x : α) :
    (put l i x).map f = put (l.map f) i (f x) := by
  rw [put, put, List.map_append, List.map_cons, List.map_take, List.map_drop]

/-! ## The map of a table -/

/-- **The table holds the map.** -/
structure Represents (l : List (Option (K × V))) (m : K → Option V) : Prop where
  /-- What a slot holds is in the map. -/
  get : ∀ {i : Nat} {k v}, l[i]? = some (some (k, v)) → m k = some v
  /-- What is in the map is in a slot. -/
  exists_get : ∀ {k v}, m k = some v → ∃ i : Nat, l[i]? = some (some (k, v))
  /-- No two slots have the same key. -/
  unique : ∀ {i j : Nat} {k v v'}, l[i]? = some (some (k, v)) → l[j]? = some (some (k, v')) → i = j

variable {l : List (Option (K × V))} {m : K → Option V} {k : K}

theorem represents_empty (h : ∀ x ∈ l, x = none) : Represents l fun _ => none where
  get hi := nomatch h _ (List.mem_of_getElem? hi)
  exists_get h := nomatch h
  unique hi _ := nomatch h _ (List.mem_of_getElem? hi)

/-- **A key is added**, in a slot that is not in use. -/
theorem Represents.add [DecidableEq K] (h : Represents l m) (v : V)
    (hi : l[i]? = some none ∨ i = l.length) (hk : m k = none) :
    Represents (put l i (some (k, v))) (update m k (some v)) := by
  have hle : i ≤ l.length := by
    rcases hi with hi | rfl
    · exact Nat.le_of_lt (List.getElem?_eq_some_iff.mp hi).1
    · exact Nat.le_refl _
  have hne : ∀ {j : Nat} {k' v'}, l[j]? = some (some (k', v')) → k' ≠ k := by
    rintro j k' v' hj rfl
    exact nomatch hk.symm.trans (h.get hj)
  refine ⟨fun {j k' v'} hj => ?_, fun {k' v'} hm => ?_, fun {j j' k' v' v''} hj hj' => ?_⟩
  · rw [getElem?_put hle] at hj
    split at hj
    next =>
      cases hj
      exact update_self k (some v) m
    next => rw [update_of_ne (hne hj), h.get hj]
  · by_cases hk' : k' = k
    · subst hk'
      rw [update_self] at hm
      cases hm
      exact ⟨i, by rw [getElem?_put hle, if_pos rfl]⟩
    · rw [update_of_ne hk'] at hm
      obtain ⟨j, hj⟩ := h.exists_get hm
      refine ⟨j, ?_⟩
      rw [getElem?_put hle, if_neg, hj]
      rintro rfl
      rcases hi with hi | rfl
      · exact nomatch hi.symm.trans hj
      · rw [List.getElem?_length] at hj
        nomatch hj
  · rw [getElem?_put hle] at hj hj'
    split at hj
    next heq =>
      cases hj
      split at hj'
      next heq' => exact heq.trans heq'.symm
      next => exact absurd rfl (hne hj')
    next =>
      split at hj'
      next =>
        cases hj'
        exact absurd rfl (hne hj)
      next => exact h.unique hj hj'

/-- **A key is removed.** -/
theorem Represents.remove [DecidableEq K] (h : Represents l m) {v : V}
    (hi : l[i]? = some (some (k, v))) :
    Represents (put l i none) (update m k none) := by
  have hle : i ≤ l.length := Nat.le_of_lt (List.getElem?_eq_some_iff.mp hi).1
  have hget : ∀ {j : Nat} {k' v'}, (put l i none)[j]? = some (some (k', v')) →
      l[j]? = some (some (k', v')) ∧ k' ≠ k := by
    intro j k' v' hj
    rw [getElem?_put hle] at hj
    split at hj
    next => nomatch hj
    next hne =>
      refine ⟨hj, ?_⟩
      rintro rfl
      exact hne (h.unique hj hi)
  refine ⟨fun hj => ?_, fun {k' v'} hm => ?_, fun hj hj' => h.unique (hget hj).1 (hget hj').1⟩
  · rw [update_of_ne (hget hj).2, h.get (hget hj).1]
  · by_cases hk : k' = k
    · rw [hk, update_self] at hm
      nomatch hm
    · rw [update_of_ne hk] at hm
      obtain ⟨j, hj⟩ := h.exists_get hm
      refine ⟨j, ?_⟩
      rw [getElem?_put hle, if_neg, hj]
      rintro rfl
      cases hi.symm.trans hj
      exact hk rfl

/-! ## The keys -/

/-- The keys, in the order of their slots. -/
def keys (l : List (Option (K × V))) : List K := l.filterMap (·.map Prod.fst)

theorem keys_cons_none (l : List (Option (K × V))) : keys (none :: l) = keys l := rfl

theorem keys_cons_some (k : K) (v : V) (l : List (Option (K × V))) :
    keys (some (k, v) :: l) = k :: keys l := rfl

theorem Represents.mem_keys (h : Represents l m) (k : K) : k ∈ keys l ↔ m k ≠ none := by
  rw [keys, List.mem_filterMap]
  constructor
  · rintro ⟨x, hx, heq⟩
    obtain ⟨⟨k', v⟩, rfl, rfl⟩ := Option.map_eq_some_iff.mp heq
    obtain ⟨i, hi⟩ := List.mem_iff_getElem?.mp hx
    rw [h.get hi]
    nofun
  · intro hne
    obtain ⟨v, hv⟩ := Option.ne_none_iff_exists'.mp hne
    obtain ⟨i, hi⟩ := h.exists_get hv
    exact ⟨some (k, v), List.mem_of_getElem? hi, rfl⟩

theorem Represents.nodup_keys (h : Represents l m) : (keys l).Nodup := by
  rw [keys, List.Nodup, List.pairwise_filterMap, List.pairwise_iff_getElem]
  intro i j hi hj hlt k hk k' hk' heq
  subst heq
  obtain ⟨⟨_, v⟩, hv, rfl⟩ := Option.map_eq_some_iff.mp hk
  obtain ⟨⟨_, v'⟩, hv', rfl⟩ := Option.map_eq_some_iff.mp hk'
  have hget : l[i]? = some (some (_, v)) := (List.getElem?_eq_getElem hi).trans (congrArg some hv)
  have hget' : l[j]? = some (some (_, v')) :=
    (List.getElem?_eq_getElem hj).trans (congrArg some hv')
  exact Nat.ne_of_lt hlt (h.unique hget hget')

end Table
