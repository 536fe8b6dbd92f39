import Pintos.Filesys.Inode

/-!
# Which sector is for what

An abstract view of the index structure of `filesys/inode.c`.  A sector of an inode has a *use*: it
is the inode itself, its block `k` of data, or one of the index blocks.  `Use.ptr` follows the
pointers to it, from a header (the inode, on disk or as the copy that `inode_expand` works on) and
through the disk.

* `Use.parent` is the index block, and the word of it, through which a use is reached.
* `Layout n used d hdr L` says of a family of headers `hdr`, and of the uses `L` that are live in
  each, that no two live uses share a sector, and that the sector of each lies on the disk and is
  marked used.
* `Layout.transfer` keeps that when no live pointer changes, and `Layout.add` when one use joins
  whose sector was not marked used.
* `Layout.SameWords` says that the words through which live uses are reached do not change, and
  `Layout.ptr_congr` that then no live pointer does.  Writing inodes and data keeps the words
  (`Layout.sameWords_of_leaves`).
* `Layout.Quiet` writes change no contents either: those to a sector that is not marked used
  (`Layout.quiet_of_free`), and those to a word of an index block that no live use is reached
  through (`Layout.quiet_of_word`).
-/

namespace Pintos

open Bytes

/-- What a sector of an inode is for. -/
inductive Use where
  /-- The inode itself. -/
  | inode
  /-- Block `k` of the data. -/
  | data (k : Nat)
  /-- The indirect block. -/
  | indirect
  /-- The doubly indirect block. -/
  | doubly
  /-- The indirect block that word `j` of the doubly indirect one points to. -/
  | second (j : Nat)
deriving DecidableEq, Repr

/-- The blocks that the three levels of the index can hold. -/
def maxBlocks : Nat := 16576

theorem maxBlocks_eq : maxBlocks = 16576 := rfl

namespace Use

/-- The index block through which a use is reached, and the word of it. -/
def parent : Use → Option (Use × Nat)
  | data k =>
    if k < 64 then none
    else if k < 192 then some (indirect, k - 64)
    else some (second ((k - 192) / 128), (k - 192) % 128)
  | second j => some (doubly, j)
  | _ => none

/-- The sector of a use of the inode in sector `i` whose header is `h`. -/
def ptr (d : Disk) (i : Nat) (h : Sector) : Use → Nat
  | inode => i
  | indirect => InodeDisk.indirect h
  | doubly => InodeDisk.doublyIndirect h
  | second j => (d (InodeDisk.doublyIndirect h)).word j
  | data k =>
    if k < 64 then InodeDisk.direct h k
    else if k < 192 then (d (InodeDisk.indirect h)).word (k - 64)
    else (d ((d (InodeDisk.doublyIndirect h)).word ((k - 192) / 128))).word ((k - 192) % 128)

/-- A use that a file of `m` blocks has. -/
def Live (m : Nat) : Use → Prop
  | inode => True
  | data k => k < m
  | indirect => 64 < m
  | doubly => 192 < m
  | second j => 192 + 128 * j < m

instance (m : Nat) : DecidablePred (Live m)
  | inode => inferInstanceAs (Decidable True)
  | data k => inferInstanceAs (Decidable (k < m))
  | indirect => inferInstanceAs (Decidable (64 < m))
  | doubly => inferInstanceAs (Decidable (192 < m))
  | second j => inferInstanceAs (Decidable (192 + 128 * j < m))

variable {d d' : Disk} {i : Nat} {h : Sector} {u v p : Use} {w : Nat}

theorem ptr_of_parent (hu : u.parent = some (p, w)) : u.ptr d i h = (d (p.ptr d i h)).word w := by
  cases u with
  | data k =>
    simp only [parent] at hu
    split at hu
    · simp at hu
    · split at hu <;> simp only [Option.some_inj] at hu <;>
        obtain ⟨rfl, rfl⟩ := hu <;> simp [ptr, *]
  | second j =>
    cases hu
    rfl
  | _ => simp [parent] at hu

theorem ptr_of_root (hu : u.parent = none) : u.ptr d' i h = u.ptr d i h := by
  cases u with
  | data k =>
    have hk : k < 64 := by
      simp only [parent] at hu
      split at hu
      · assumption
      · split at hu <;> simp at hu
    simp [ptr, hk]
  | second j => simp [parent] at hu
  | _ => rfl

theorem parent_inj (hu : u.parent = some (p, w)) (hv : v.parent = some (p, w)) : u = v := by
  cases u <;> cases v <;> simp only [parent] at hu hv <;> grind

theorem Live.parent {m : Nat} (hm : m ≤ maxBlocks) (hl : u.Live m)
    (hu : u.parent = some (p, w)) : p.Live m ∧ w < 128 := by
  rw [maxBlocks_eq] at hm
  cases u with
  | data k =>
    simp only [parent] at hu
    simp only [Live] at hl
    split at hu
    · simp at hu
    · split at hu <;> simp only [Option.some_inj] at hu <;>
        obtain ⟨rfl, rfl⟩ := hu <;> simp only [Live] <;> omega
  | second j =>
    cases hu
    simp only [Live] at hl ⊢
    omega
  | _ => simp [parent] at hu

theorem Live.mono {m m' : Nat} (hm : m ≤ m') (hl : u.Live m) : u.Live m' := by
  cases u <;> simp only [Live] at hl ⊢ <;> omega

theorem parent_ne_leaf (hu : u.parent = some (p, w)) : p ≠ .inode ∧ ∀ k, p ≠ .data k := by
  cases u <;> simp only [parent] at hu <;> grind

end Use

/-- The live uses of the inodes share no sector, and the sectors lie on a disk of `n` and are marked
used. -/
structure Layout (n : Nat) (used : Nat → Bool) (d : Disk) (hdr : Nat → Sector)
    (L : Nat → Use → Prop) : Prop where
  /-- A live use is reached through one that is. -/
  parent : ∀ i u p w, L i u → u.parent = some (p, w) → L i p ∧ w < 128
  lt : ∀ i u, L i u → u.ptr d i (hdr i) < n
  used : ∀ i u, L i u → used (u.ptr d i (hdr i)) = true
  /-- It shares its sector with no other. -/
  inj : ∀ i j u v, L i u → L j v → u.ptr d i (hdr i) = v.ptr d j (hdr j) → i = j ∧ u = v

namespace Layout

variable {n : Nat} {used used' : Nat → Bool} {d d' : Disk} {hdr hdr' : Nat → Sector}
  {L L' : Nat → Use → Prop} {s : Nat} {u : Use}

theorem ne_of_free (h : Layout n used d hdr L) {i : Nat} (hs : used s = false) (hu : L i u) :
    u.ptr d i (hdr i) ≠ s := by
  intro heq
  have := h.used i u hu
  rw [heq, hs] at this
  cases this

theorem transfer (h : Layout n used d hdr L) (hsub : ∀ i u, L' i u → L i u)
    (hpar : ∀ i u p w, L' i u → u.parent = some (p, w) → L' i p ∧ w < 128)
    (hptr : ∀ i u, L' i u → u.ptr d' i (hdr' i) = u.ptr d i (hdr i))
    (hused : ∀ s, used s = true → used' s = true) : Layout n used' d' hdr' L' where
  parent := hpar
  lt i u hu := by rw [hptr i u hu]; exact h.lt i u (hsub i u hu)
  used i u hu := by rw [hptr i u hu]; exact hused _ (h.used i u (hsub i u hu))
  inj i j u v hu hv heq := by
    rw [hptr i u hu, hptr j v hv] at heq
    exact h.inj i j u v (hsub i u hu) (hsub j v hv) heq

/-- One more live use. -/
def Add (L : Nat → Use → Prop) (i₀ : Nat) (u₀ : Use) : Nat → Use → Prop :=
  fun i u => L i u ∨ (i = i₀ ∧ u = u₀)

variable {i₀ : Nat} {u₀ : Use}

/-- **A use joins**, in a sector that was not marked used, with the pointers to the others as they
were. -/
theorem add (h : Layout n used d hdr L) (hs : s < n) (hfree : used s = false)
    (hpar : ∀ p w, u₀.parent = some (p, w) → L i₀ p ∧ w < 128)
    (hptr : ∀ i u, L i u → u.ptr d' i (hdr' i) = u.ptr d i (hdr i))
    (hnew : u₀.ptr d' i₀ (hdr' i₀) = s) (hused : ∀ s', used s' = true → used' s' = true)
    (hused' : used' s = true) : Layout n used' d' hdr' (Add L i₀ u₀) := by
  have hne : ∀ i u, L i u → u.ptr d' i (hdr' i) ≠ s := fun i u hu heq =>
    h.ne_of_free hfree hu ((hptr i u hu).symm.trans heq)
  refine ⟨?_, ?_, ?_, ?_⟩
  · rintro i u p w (hu | ⟨rfl, rfl⟩) hp
    · exact ⟨.inl (h.parent i u p w hu hp).1, (h.parent i u p w hu hp).2⟩
    · exact ⟨.inl (hpar p w hp).1, (hpar p w hp).2⟩
  · rintro i u (hu | ⟨rfl, rfl⟩)
    · rw [hptr i u hu]
      exact h.lt i u hu
    · rw [hnew]
      exact hs
  · rintro i u (hu | ⟨rfl, rfl⟩)
    · rw [hptr i u hu]
      exact hused _ (h.used i u hu)
    · rw [hnew]
      exact hused'
  · rintro i j u v (hu | ⟨rfl, rfl⟩) (hv | ⟨rfl, rfl⟩) heq
    · rw [hptr i u hu, hptr j v hv] at heq
      exact h.inj i j u v hu hv heq
    · rw [hnew] at heq
      exact absurd heq (hne i u hu)
    · rw [hnew] at heq
      exact absurd heq.symm (hne j v hv)
    · exact ⟨rfl, rfl⟩

/-! ## Writes that change no live pointer -/

/-- The words through which live uses are reached are the same in `d'` as in `d`. -/
def SameWords (hdr : Nat → Sector) (L : Nat → Use → Prop) (d d' : Disk) : Prop :=
  ∀ i u p w, L i u → u.parent = some (p, w) →
    (d' (p.ptr d i (hdr i))).word w = (d (p.ptr d i (hdr i))).word w

/-- Pointers to live uses depend on the words that live uses are reached through, and on the
pointers in the header. -/
theorem ptr_congr (hpar : ∀ i u p w, L i u → u.parent = some (p, w) → L i p ∧ w < 128)
    (hword : SameWords hdr L d d')
    (hroot : ∀ i u, L i u → u.parent = none → u.ptr d i (hdr' i) = u.ptr d i (hdr i)) :
    ∀ i u, L i u → u.ptr d' i (hdr' i) = u.ptr d i (hdr i) := by
  -- one level down from an index block whose own pointer is known
  have hstep : ∀ i u p w, L i u → u.parent = some (p, w) →
      p.ptr d' i (hdr' i) = p.ptr d i (hdr i) → u.ptr d' i (hdr' i) = u.ptr d i (hdr i) := by
    intro i u p w hu hp heq
    rw [Use.ptr_of_parent hp, Use.ptr_of_parent hp, heq]
    exact hword i u p w hu hp
  have hbase : ∀ i u, L i u → u.parent = none → u.ptr d' i (hdr' i) = u.ptr d i (hdr i) :=
    fun i u hu hp => (Use.ptr_of_root hp).trans (hroot i u hu hp)
  have hindex : ∀ i u, L i u → (∀ k, u ≠ .data k) → u.ptr d' i (hdr' i) = u.ptr d i (hdr i) := by
    intro i u hu hk
    cases u with
    | data k => exact absurd rfl (hk k)
    | second j =>
      exact hstep i _ .doubly j hu rfl (hbase i .doubly (hpar i _ .doubly j hu rfl).1 rfl)
    | _ => exact hbase i _ hu rfl
  intro i u hu
  rcases hp : u.parent with _ | ⟨p, w⟩
  · exact hbase i u hu hp
  · exact hstep i u p w hu hp (hindex i p (hpar i u p w hu hp).1 (Use.parent_ne_leaf hp).2)

theorem ptr_eq (h : Layout n used d hdr L) (hword : SameWords hdr L d d') :
    ∀ i u, L i u → u.ptr d' i (hdr i) = u.ptr d i (hdr i) :=
  ptr_congr h.parent hword fun _ _ _ _ => rfl

theorem sameWords (h : Layout n used d hdr L) (hword : SameWords hdr L d d') :
    Layout n used d' hdr L :=
  h.transfer (fun _ _ hu => hu) h.parent (h.ptr_eq hword) fun _ hs => hs

/-- The uses that are read for no pointer: the inode itself and the data. -/
def Leaf (u : Use) : Prop := u = .inode ∨ ∃ k, u = .data k

theorem not_leaf_of_parent {p : Use} {w : Nat} (hp : u.parent = some (p, w)) : ¬ Leaf p := by
  obtain ⟨h1, h2⟩ := Use.parent_ne_leaf hp
  rintro (rfl | ⟨k, rfl⟩)
  · exact h1 rfl
  · exact h2 k rfl

theorem sameWords_of_leaves (h : Layout n used d hdr L)
    (hd : ∀ s, d' s ≠ d s → ∃ i u, L i u ∧ Leaf u ∧ u.ptr d i (hdr i) = s) :
    SameWords hdr L d d' := by
  intro i u p w hu hp
  by_cases hs : d' (p.ptr d i (hdr i)) = d (p.ptr d i (hdr i))
  · rw [hs]
  · obtain ⟨j, v, hv, hleaf, heq⟩ := hd _ hs
    obtain ⟨rfl, rfl⟩ := h.inj j i v p hv (h.parent i u p w hu hp).1 heq
    exact absurd hleaf (not_leaf_of_parent hp)

/-! ## Writes that change neither pointers nor contents -/

/-- From `d` to `d'`, no live pointer changes, and no live sector but the index blocks. -/
structure Quiet (hdr : Nat → Sector) (L : Nat → Use → Prop) (d d' : Disk) : Prop where
  /-- The words that pointers go through stay. -/
  words : SameWords hdr L d d'
  leaf : ∀ i u, L i u → Leaf u → d' (u.ptr d i (hdr i)) = d (u.ptr d i (hdr i))

theorem Quiet.refl : Quiet hdr L d d := ⟨fun _ _ _ _ _ _ => rfl, fun _ _ _ _ => rfl⟩

theorem Quiet.trans {d'' : Disk} (h : Layout n used d hdr L) (hq : Quiet hdr L d d')
    (hq' : Quiet hdr L d' d'') : Quiet hdr L d d'' where
  words i u p w hu hp := by
    have hptr := h.ptr_eq hq.words i p (h.parent i u p w hu hp).1
    rw [← hq.words i u p w hu hp, ← hptr]
    exact hq'.words i u p w hu hp
  leaf i u hu hl := by
    rw [← hq.leaf i u hu hl, ← h.ptr_eq hq.words i u hu]
    exact hq'.leaf i u hu hl

theorem quiet_of_free (h : Layout n used d hdr L) (hs : used s = false) (b : Sector) :
    Quiet hdr L d (Function.update d s b) where
  words i u p w hu hp := by
    rw [Function.update_of_ne (h.ne_of_free hs (h.parent i u p w hu hp).1)]
  leaf i u hu _ := Function.update_of_ne (h.ne_of_free hs hu) _ _

theorem quiet_of_word (h : Layout n used d hdr L) {w0 : Nat} {p0 : Use} (hp0 : L i₀ p0)
    (hu0 : ¬ L i₀ u₀) (hparent : u₀.parent = some (p0, w0)) (v : Nat) :
    Quiet hdr L d (Function.update d (p0.ptr d i₀ (hdr i₀))
      ((d (p0.ptr d i₀ (hdr i₀))).write (4 * w0) (le32 v))) where
  words i u p w hu hp := by
    by_cases hs : p.ptr d i (hdr i) = p0.ptr d i₀ (hdr i₀)
    · obtain ⟨rfl, rfl⟩ := h.inj i i₀ p p0 (h.parent i u p w hu hp).1 hp0 hs
      have hw := (h.parent i u p w hu hp).2
      rw [Function.update_self]
      refine Block.word_write_ne _ (by omega) fun heq => hu0 ?_
      subst heq
      exact Use.parent_inj hparent hp ▸ hu
    · rw [Function.update_of_ne hs]
  leaf i u hu hl := by
    refine Function.update_of_ne (fun heq => ?_) _ _
    obtain ⟨rfl, rfl⟩ := h.inj i i₀ u p0 hu hp0 heq
    exact not_leaf_of_parent hparent hl

end Layout

end Pintos
