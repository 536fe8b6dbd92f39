import Mathlib.Data.List.Basic

/-!
# Ordered lists

The two functions of `lib/kernel/list.c` that put a doubly linked list in order, over any elements
and any comparison `less`.

* `listInsertOrdered` is `list_insert_ordered`: it puts an element before the first one that it is
  less than.  `pairwise_listInsertOrdered` is what the ready list relies on: a list in falling
  order of a key stays so.
* `listSort` is `list_sort`, a natural merge sort: a pass merges adjacent runs two by two, and the
  passes go on until one has put out a single run.  `listSort_perm`: it permutes the list, and
  `listSortLoop_spec`: the passes end, with the list in order.  It is stable, too:
  `filter_listSortLoop` says so for elements that count as equal, which stand behind each other as
  before.  `Sorts` sums up the three for a key, and `list_sort_stable` for a strict weak order.
* `pairwise_raise` is about a change of the key of one element of such a list in its place: the
  order is kept if no element ahead of it has a smaller key than its new one.
-/

namespace Pintos

variable {α : Type}

/-! ## Insertion -/

/-- `list_insert_ordered`. -/
def listInsertOrdered (less : α → α → Bool) (elem : α) : List α → List α
  | [] => [elem]
  | e :: l => if less elem e then elem :: e :: l else e :: listInsertOrdered less elem l

theorem listInsertOrdered_perm (less : α → α → Bool) (elem : α) (l : List α) :
    (listInsertOrdered less elem l).Perm (elem :: l) := by
  induction l with
  | nil => exact .refl _
  | cons e l ih =>
    rw [listInsertOrdered]
    split
    · exact .refl _
    · exact (ih.cons e).trans (.swap elem e l)

variable {less : α → α → Bool} {l : List α}

theorem mem_listInsertOrdered {elem x : α} :
    x ∈ listInsertOrdered less elem l ↔ x = elem ∨ x ∈ l := by
  rw [(listInsertOrdered_perm less elem l).mem_iff, List.mem_cons]

/-- What `list.c` asks of a comparison.  Two elements of which neither is less count as equal. -/
@[mk_iff]
structure Compares (less : α → α → Bool) : Prop where
  asymm : ∀ {a b}, less a b = true → less b a = false
  trans : ∀ {a b c}, less a b = false → less b c = false → less a c = false

theorem Compares.of_strictWeak (h : IsStrictWeakOrder α fun a b => less a b = true) :
    Compares less := by
  simp only [compares_iff, ← Bool.not_eq_true]
  refine ⟨fun hab hba => h.irrefl _ (h.trans _ _ _ hab hba), fun {a b c} hab hbc hac => ?_⟩
  have hba : ¬ less b a = true := fun hba => hbc (h.trans _ _ _ hba hac)
  have hcb : ¬ less c b = true := fun hcb => hab (h.trans _ _ _ hac hcb)
  exact (h.incomp_trans _ _ _ ⟨hab, hba⟩ ⟨hbc, hcb⟩).1 hac

/-- No element is less than one before it. -/
abbrev InOrder (less : α → α → Bool) (l : List α) : Prop := l.Pairwise fun a b => less b a = false

/-- **Ordered insertion**: behind the elements that the new one is not less than. -/
theorem exists_listInsertOrdered (hc : Compares less) (elem : α) (h : InOrder less l) :
    ∃ before after, l = before ++ after ∧ listInsertOrdered less elem l = before ++ elem :: after ∧
      (∀ a ∈ before, less elem a = false) ∧ ∀ a ∈ after, less elem a = true := by
  induction l with
  | nil => exact ⟨[], [], rfl, rfl, List.forall_mem_nil _, List.forall_mem_nil _⟩
  | cons e l ih =>
    obtain ⟨hhead, htail⟩ := List.pairwise_cons.mp h
    rw [listInsertOrdered]
    split
    next hlt =>
      refine ⟨[], e :: l, rfl, rfl, List.forall_mem_nil _, List.forall_mem_cons.mpr ⟨hlt, ?_⟩⟩
      intro a ha
      rw [← Bool.not_eq_false]
      intro hnot
      rw [hc.trans hnot (hhead a ha)] at hlt
      cases hlt
    next hnot =>
      obtain ⟨before, after, rfl, heq, hbefore, hafter⟩ := ih htail
      refine ⟨e :: before, after, rfl, by rw [heq]; rfl, ?_, hafter⟩
      exact List.forall_mem_cons.mpr ⟨Bool.eq_false_iff.mpr hnot, hbefore⟩

theorem inOrder_listInsertOrdered (hc : Compares less) (elem : α) (h : InOrder less l) :
    InOrder less (listInsertOrdered less elem l) := by
  obtain ⟨before, after, rfl, heq, hbefore, hafter⟩ := exists_listInsertOrdered hc elem h
  obtain ⟨hb, ha, hab⟩ := List.pairwise_append.mp h
  rw [heq]
  refine List.pairwise_append.mpr ⟨hb, List.pairwise_cons.mpr ⟨fun a ha => ?_, ha⟩, ?_⟩
  · exact hc.asymm (hafter a ha)
  · exact fun b hb => List.forall_mem_cons.mpr ⟨hbefore b hb, hab b hb⟩

/-- The elements stand in falling order of the key. -/
abbrev Falling (key : α → Int) (l : List α) : Prop := l.Pairwise fun a b => key b ≤ key a

section Key

variable {key : α → Int} (hless : ∀ a b, less a b = true ↔ key b < key a)
include hless

theorem less_eq_false (a b : α) : less a b = false ↔ key a ≤ key b := by
  rw [← Bool.not_eq_true, hless, Int.not_lt]

theorem Compares.of_key : Compares less := by
  simp only [compares_iff, less_eq_false hless, hless]
  exact ⟨Int.le_of_lt, Int.le_trans⟩

theorem inOrder_iff_falling : InOrder less l ↔ Falling key l := by
  simp only [InOrder, less_eq_false hless]

theorem pairwise_listInsertOrdered {elem : α} (h : Falling key l) :
    Falling key (listInsertOrdered less elem l) :=
  (inOrder_iff_falling hless).mp
    (inOrder_listInsertOrdered (.of_key hless) elem ((inOrder_iff_falling hless).mpr h))

end Key

/-! ## A key that grows in its place -/

/-- **A key that grows.**  The order is kept if no element ahead of it has a smaller key than its
new one. -/
theorem pairwise_raise [DecidableEq α] {key : α → Int} {h : α} {p : Int} (hl : Falling key l)
    (hp : key h ≤ p) (hahead : ∀ t ∈ l.takeWhile (· ≠ h), p ≤ key t) (hnodup : l.Nodup) :
    Falling (Function.update key h p) l := by
  induction l with
  | nil => exact List.Pairwise.nil
  | cons e l ih =>
    obtain ⟨hhead, htail⟩ := List.pairwise_cons.mp hl
    obtain ⟨hne, hnodup⟩ := List.nodup_cons.mp hnodup
    by_cases he : e = h
    · -- Behind the element whose key grows no other key changes.
      subst he
      have hsame : ∀ b ∈ l, Function.update key e p b = key b := fun b hb =>
        Function.update_of_ne (by rintro rfl; exact hne hb) _ _
      refine List.pairwise_cons.mpr ⟨fun b hb => ?_, ?_⟩
      · rw [hsame b hb, Function.update_self]
        exact Int.le_trans (hhead b hb) hp
      · exact htail.imp_of_mem fun ha hb hab => by rwa [hsame _ ha, hsame _ hb]
    · rw [List.takeWhile_cons_of_pos (by simpa using he)] at hahead
      have hrest := ih htail (fun t ht => hahead t (.tail _ ht)) hnodup
      refine List.pairwise_cons.mpr ⟨fun b hb => ?_, hrest⟩
      rw [Function.update_of_ne he]
      by_cases hb' : b = h
      · subst hb'
        rw [Function.update_self]
        exact hahead e (.head _)
      · rw [Function.update_of_ne hb']
        exact hhead b hb

/-! ## Sorting -/

/-- The runs of nondecreasing elements, as `find_end_of_run` cuts the list. -/
def runs (less : α → α → Bool) : List α → List (List α)
  | [] => []
  | a :: l =>
    match runs less l with
    | (b :: run) :: rest => if less b a then [a] :: (b :: run) :: rest else (a :: b :: run) :: rest
    | rest => [a] :: rest

/-- `inplace_merge`. -/
def inplaceMerge (less : α → α → Bool) (a b : List α) : List α := a.merge b fun x y => !less y x

/-- What one pass of `list_sort` puts out, run by run. -/
def mergeAdjacent (less : α → α → Bool) : List (List α) → List (List α)
  | a :: b :: rest => inplaceMerge less a b :: mergeAdjacent less rest
  | rest => rest

/-- The passes of `list_sort`. -/
def listSortLoop (less : α → α → Bool) : Nat → List α → List α
  | 0, l => l
  | fuel + 1, l =>
    let output := mergeAdjacent less (runs less l)
    if output.length > 1 then listSortLoop less fuel output.flatten else output.flatten

/-- The passes of `list_sort`, as far as so many of them go. -/
def listSortPasses (less : α → α → Bool) : Nat → List α → Option (List α)
  | 0, _ => none
  | fuel + 1, l =>
    let output := mergeAdjacent less (runs less l)
    if output.length > 1 then listSortPasses less fuel output.flatten else some output.flatten

/-- `list_sort`.  A pass halves the number of runs, so that there are no more passes than
elements. -/
def listSort (less : α → α → Bool) (l : List α) : List α := listSortLoop less l.length l

theorem flatten_runs (less : α → α → Bool) (l : List α) : (runs less l).flatten = l := by
  induction l with
  | nil => rfl
  | cons a l ih =>
    rw [runs]
    split
    next b run rest hruns =>
      rw [hruns] at ih
      split <;> simpa using ih
    next rest => simpa using ih

theorem flatten_mergeAdjacent_perm (less : α → α → Bool) (rs : List (List α)) :
    (mergeAdjacent less rs).flatten.Perm rs.flatten := by
  fun_induction mergeAdjacent less rs with
  | case1 a b rest ih =>
    rw [List.flatten_cons, List.flatten_cons, List.flatten_cons, ← List.append_assoc]
    exact (List.merge_perm_append _).append ih
  | case2 rest => exact .refl _

theorem listSortLoop_perm (less : α → α → Bool) (fuel : Nat) (l : List α) :
    (listSortLoop less fuel l).Perm l := by
  induction fuel generalizing l with
  | zero => exact .refl _
  | succ fuel ih =>
    have hpass : (mergeAdjacent less (runs less l)).flatten.Perm l := by
      simpa only [flatten_runs] using flatten_mergeAdjacent_perm less (runs less l)
    rw [listSortLoop]
    split
    · exact (ih _).trans hpass
    · exact hpass

theorem listSort_perm (less : α → α → Bool) (l : List α) : (listSort less l).Perm l :=
  listSortLoop_perm less l.length l

/-! ## Sorting puts in order -/

section Order

variable {key : α → Int} {less : α → α → Bool}

theorem runs_cons (less : α → α → Bool) (a : α) (l : List α) :
    ∃ run rest, runs less (a :: l) = (a :: run) :: rest := by
  rw [runs]
  split
  next b run rest _ =>
    split
    · exact ⟨[], _, rfl⟩
    · exact ⟨_, _, rfl⟩
  next => exact ⟨[], _, rfl⟩

variable {l : List α} {a : α}

theorem inOrder_of_mem_runs (hc : Compares less) : ∀ r ∈ runs less l, InOrder less r := by
  induction l with
  | nil => nofun
  | cons a l ih =>
    rw [runs]
    split
    next b run rest hruns =>
      rw [hruns] at ih
      obtain ⟨hrun, hrest⟩ := List.forall_mem_cons.mp ih
      split
      next =>
        exact List.forall_mem_cons.mpr ⟨List.pairwise_singleton _ _, ih⟩
      next hnot =>
        have hab := Bool.eq_false_iff.mpr hnot
        refine List.forall_mem_cons.mpr ⟨List.pairwise_cons.mpr ⟨fun x hx => ?_, hrun⟩, hrest⟩
        rcases List.mem_cons.mp hx with rfl | hx
        · exact hab
        · exact hc.trans ((List.pairwise_cons.mp hrun).1 x hx) hab
    next => exact List.forall_mem_cons.mpr ⟨List.pairwise_singleton _ _, ih⟩

theorem length_runs_cons_le (less : α → α → Bool) (a : α) (l : List α) :
    (runs less (a :: l)).length ≤ (runs less l).length + 1 := by
  rw [runs]
  split
  next b run rest hruns =>
    rw [hruns]
    split
    · exact Nat.le_refl _
    · exact Nat.le_succ _
  next => exact Nat.le_refl _

theorem length_runs_le (less : α → α → Bool) (l : List α) : (runs less l).length ≤ l.length := by
  induction l with
  | nil => exact Nat.le_refl _
  | cons a l ih => exact Nat.le_trans (length_runs_cons_le less a l) (Nat.succ_le_succ ih)

theorem length_runs_append_le (l : List α) :
    ∀ {r : List α}, InOrder less r → (runs less (r ++ l)).length ≤ (runs less l).length + 1
  | [], _ => Nat.le_succ _
  | [a], _ => length_runs_cons_le less a l
  | a :: b :: r, h => by
    obtain ⟨hhead, htail⟩ := List.pairwise_cons.mp h
    have ih := length_runs_append_le l htail
    obtain ⟨run, rest, hruns⟩ := runs_cons less b (r ++ l)
    rw [List.cons_append] at ih
    rw [List.cons_append, List.cons_append, runs, hruns]
    dsimp only
    rw [hhead b (.head _), if_neg Bool.false_ne_true]
    rw [hruns] at ih
    exact ih

theorem length_runs_flatten_le :
    ∀ {rs : List (List α)}, (∀ r ∈ rs, InOrder less r) → (runs less rs.flatten).length ≤ rs.length
  | [], _ => Nat.le_refl _
  | r :: rs, h => by
    obtain ⟨hr, hrs⟩ := List.forall_mem_cons.mp h
    exact Nat.le_trans (length_runs_append_le _ hr) (Nat.succ_le_succ (length_runs_flatten_le hrs))

section

variable (hc : Compares less)
include hc

theorem inOrder_inplaceMerge {a b : List α} (ha : InOrder less a) (hb : InOrder less b) :
    InOrder less (inplaceMerge less a b) := by
  simp only [InOrder, ← Bool.not_eq_true'] at ha hb ⊢
  refine List.pairwise_merge (fun x y z hxy hyz => ?_) (fun x y => ?_) a b ha hb
  · rw [Bool.not_eq_true'] at hxy hyz ⊢
    exact hc.trans hyz hxy
  · cases hxy : less y x with
    | false => rfl
    | true => rw [hc.asymm hxy, Bool.not_false, Bool.or_true]

theorem mergeAdjacent_spec (rs : List (List α)) (h : ∀ r ∈ rs, InOrder less r) :
    (∀ r ∈ mergeAdjacent less rs, InOrder less r) ∧
      (mergeAdjacent less rs).length = (rs.length + 1) / 2 := by
  fun_induction mergeAdjacent less rs with
  | case1 a b rest ih =>
    obtain ⟨ha, h⟩ := List.forall_mem_cons.mp h
    obtain ⟨hb, h⟩ := List.forall_mem_cons.mp h
    obtain ⟨hrest, hlen⟩ := ih h
    refine ⟨List.forall_mem_cons.mpr ⟨inOrder_inplaceMerge hc ha hb, hrest⟩, ?_⟩
    simp only [List.length_cons]
    omega
  | case2 rest hne =>
    refine ⟨h, ?_⟩
    match rest, hne with
    | [], _ => simp
    | [_], _ => simp
    | a :: b :: rest, hne => exact absurd rfl (hne a b rest)

/-- **The passes end** with the list in order. -/
theorem listSortLoop_spec :
    ∀ (fuel : Nat) {l : List α}, (runs less l).length ≤ fuel →
      listSortPasses less (fuel + 1) l = some (listSortLoop less fuel l) ∧
        InOrder less (listSortLoop less fuel l)
  | 0, l, hle => by
    rw [← flatten_runs less l, List.eq_nil_of_length_eq_zero (Nat.le_zero.mp hle)]
    exact ⟨rfl, .nil⟩
  | fuel + 1, l, hle => by
    obtain ⟨hin, hlen⟩ := mergeAdjacent_spec hc _ (inOrder_of_mem_runs hc (l := l))
    rw [listSortPasses, listSortLoop]
    split
    next hmany =>
      refine listSortLoop_spec fuel ?_
      have hfewer := length_runs_flatten_le hin
      omega
    next hone =>
      refine ⟨rfl, ?_⟩
      match hout : mergeAdjacent less (runs less l) with
      | [] => exact .nil
      | [r] =>
        rw [hout] at hin
        rw [List.flatten_singleton]
        exact hin r (.head _)
      | _ :: _ :: _ =>
        rw [hout, List.length_cons, List.length_cons] at hone
        omega

end

/-- **`list_sort` puts the list in order.** -/
theorem falling_listSort (hless : ∀ a b, less a b = true ↔ key b < key a) (l : List α) :
    Falling key (listSort less l) :=
  (inOrder_iff_falling hless).mp
    (listSortLoop_spec (.of_key hless) l.length (length_runs_le less l)).2

/-! ## Sorting is stable -/

/-- The elements of one key. -/
def withKey (key : α → Int) (k : Int) (l : List α) : List α := l.filter fun a => key a = k

theorem withKey_cons (k : Int) (a : α) (l : List α) :
    withKey key k (a :: l) = if key a = k then a :: withKey key k l else withKey key k l := by
  simp only [withKey, List.filter_cons, decide_eq_true_eq]

theorem mem_withKey {k : Int} : a ∈ withKey key k l ↔ a ∈ l ∧ key a = k := by
  rw [withKey, List.mem_filter, decide_eq_true_eq]

section

variable (hc : Compares less) {p : α → Bool}
  (hp : ∀ a b, p a = true → p b = true → less a b = false)
include hc hp

theorem filter_inplaceMerge :
    ∀ {a : List α} (b : List α), InOrder less a →
      (inplaceMerge less a b).filter p = a.filter p ++ b.filter p
  | [], b, _ => by rw [inplaceMerge, List.nil_merge]; rfl
  | x :: a, [], _ => by rw [inplaceMerge, List.merge_right]; exact (List.append_nil _).symm
  | x :: a, y :: b, h => by
    obtain ⟨hhead, htail⟩ := List.pairwise_cons.mp h
    rw [inplaceMerge, List.cons_merge_cons]
    split
    next =>
      have ih : (a.merge (y :: b) fun x y => !less y x).filter p = _ :=
        filter_inplaceMerge (y :: b) htail
      rw [List.filter_cons, List.filter_cons, ih]
      split <;> rfl
    next hlt =>
      have ih : ((x :: a).merge b fun x y => !less y x).filter p = _ := filter_inplaceMerge b h
      rw [List.filter_cons, @List.filter_cons _ y b, ih]
      split
      next hy =>
        -- The element that is taken is less than all of the first run.
        have hnone : (x :: a).filter p = [] := List.filter_eq_nil_iff.mpr fun z hz hpz => hlt ?_
        · rw [hnone, List.nil_append, List.nil_append]
        rw [Bool.not_eq_true']
        rcases List.mem_cons.mp hz with rfl | hz
        · exact hp y z hy hpz
        · exact hc.trans (hp y z hy hpz) (hhead z hz)
      next => rfl

theorem filter_mergeAdjacent (rs : List (List α)) (h : ∀ r ∈ rs, InOrder less r) :
    (mergeAdjacent less rs).flatten.filter p = rs.flatten.filter p := by
  fun_induction mergeAdjacent less rs with
  | case1 a b rest ih =>
    obtain ⟨ha, h⟩ := List.forall_mem_cons.mp h
    obtain ⟨-, h⟩ := List.forall_mem_cons.mp h
    simp only [List.flatten_cons, List.filter_append, filter_inplaceMerge hc hp b ha, ih h,
      List.append_assoc]
  | case2 rest => rfl

theorem filter_listSortLoop (fuel : Nat) (l : List α) :
    (listSortLoop less fuel l).filter p = l.filter p := by
  induction fuel generalizing l with
  | zero => rfl
  | succ fuel ih =>
    have hpass : (mergeAdjacent less (runs less l)).flatten.filter p = l.filter p := by
      rw [filter_mergeAdjacent hc hp _ (inOrder_of_mem_runs hc), flatten_runs]
    rw [listSortLoop]
    split
    · exact (ih _).trans hpass
    · exact hpass

end

/-- The second list is the first one in falling order of the key, and elements of one key stand in
it as in the first one. -/
structure Sorts (key : α → Int) (l l' : List α) : Prop where
  perm : l'.Perm l
  falling : Falling key l'
  stable : ∀ k, withKey key k l' = withKey key k l

theorem sorts_listSort (hless : ∀ a b, less a b = true ↔ key b < key a) (l : List α) :
    Sorts key l (listSort less l) :=
  ⟨listSort_perm less l, falling_listSort hless l, fun k =>
    filter_listSortLoop (p := fun a => key a = k) (.of_key hless)
      (fun a b ha hb => (less_eq_false hless a b).mpr (Int.le_of_eq
        ((of_decide_eq_true ha).trans (of_decide_eq_true hb).symm))) l.length l⟩

variable {l' : List α}

theorem Sorts.congr {key' : α → Int} (h : Sorts key l l') (heq : ∀ a ∈ l, key' a = key a) :
    Sorts key' l l' := by
  have hwith : ∀ k, ∀ {l'' : List α}, l'' ⊆ l → withKey key' k l'' = withKey key k l'' :=
    fun k l'' hsub => List.filter_congr fun a ha => by rw [heq a (hsub ha)]
  refine ⟨h.perm, h.falling.imp_of_mem fun ha hb hab => ?_, fun k => ?_⟩
  · rwa [heq _ (h.perm.subset ha), heq _ (h.perm.subset hb)]
  · rw [hwith k h.perm.subset, hwith k (List.Subset.refl l), h.stable k]

theorem Sorts.trans {l'' : List α} (h : Sorts key l l') (h' : Sorts key l' l'') : Sorts key l l'' :=
  ⟨h'.perm.trans h.perm, h'.falling, fun k => (h'.stable k).trans (h.stable k)⟩

theorem Sorts.filter (h : Sorts key l l') (p : α → Bool) :
    Sorts key (l.filter p) (l'.filter p) := by
  have hcomm : ∀ k, ∀ l : List α, withKey key k (l.filter p) = (withKey key k l).filter p :=
    fun k l => List.filter_comm ..
  exact ⟨h.perm.filter p, h.falling.filter p, fun k => by rw [hcomm, hcomm, h.stable]⟩

theorem Sorts.head {rest : List α} (h : Sorts key l (a :: rest)) :
    (∀ b ∈ l, key b ≤ key a) ∧ (withKey key (key a) l).head? = some a := by
  refine ⟨fun b hb => ?_, ?_⟩
  · rcases List.mem_cons.mp (h.perm.mem_iff.mpr hb) with rfl | hb
    · exact Int.le_refl _
    · exact (List.pairwise_cons.mp h.falling).1 b hb
  · rw [← h.stable, withKey_cons, if_pos rfl]
    rfl

theorem pairwise_withKey {R : α → α → Prop} :
    (l.Pairwise fun a b => key a = key b → R a b) ↔ ∀ k, (withKey key k l).Pairwise R := by
  constructor
  · intro h k
    refine (h.filter _).imp_of_mem fun ha hb hab => hab ?_
    exact (mem_withKey.mp ha).2.trans (mem_withKey.mp hb).2.symm
  · intro h
    induction l with
    | nil => exact .nil
    | cons a l ih =>
      refine List.pairwise_cons.mpr ⟨fun b hb heq => ?_, ih fun k => ?_⟩
      · have hkey := h (key a)
        rw [withKey_cons, if_pos rfl] at hkey
        exact (List.pairwise_cons.mp hkey).1 b (mem_withKey.mpr ⟨hb, heq.symm⟩)
      · exact (h k).sublist ((List.sublist_cons_self a l).filter _)

/-- **`list_sort` is a stable sort**, and `list_insert_ordered` inserts behind equals. -/
theorem list_sort_stable {less : α → α → Bool}
    (hless : IsStrictWeakOrder α fun a b => less a b = true) (l : List α) :
    (∃ passes, listSortPasses less passes l = some (listSort less l)) ∧
      (listSort less l).Perm l ∧ InOrder less (listSort less l) ∧
      (∀ x, (listSort less l).filter (fun a => !less a x && !less x a)
        = l.filter fun a => !less a x && !less x a) ∧
      ∀ elem, InOrder less l → InOrder less (listInsertOrdered less elem l) ∧
        ∃ before after, l = before ++ after ∧
          listInsertOrdered less elem l = before ++ elem :: after ∧
          (∀ a ∈ before, less elem a = false) ∧ ∀ a ∈ after, less elem a = true := by
  have hc := Compares.of_strictWeak hless
  obtain ⟨hends, hin⟩ := listSortLoop_spec hc l.length (length_runs_le less l)
  refine ⟨⟨_, hends⟩, listSort_perm less l, hin, fun x => ?_, fun elem h =>
    ⟨inOrder_listInsertOrdered hc elem h, exists_listInsertOrdered hc elem h⟩⟩
  refine filter_listSortLoop hc (fun a b ha hb => ?_) l.length l
  simp only [Bool.and_eq_true, Bool.not_eq_true'] at ha hb
  exact hc.trans ha.1 hb.2

/-- Pairs in order of their first components. -/
theorem list_sort_stable_pairs : InOrder (fun a b : Nat × Nat => a.1 < b.1)
    (listSort (fun a b => a.1 < b.1) [(2, 0), (1, 1), (2, 2), (1, 3)]) :=
  (list_sort_stable { irrefl := by simp, trans := by simp; omega, incomp_trans := by simp; omega }
    _).2.2.1

end Order

end Pintos
