import Pintos.Kernel.Malloc

/-!
# Arenas and their blocks

What the headers, the free lists and the live blocks of the heap of `Kernel/Malloc.lean` have to do
with each other.

* `ArenasOk` ties the headers to the pages that the heap has.  From it follows that two blocks of
  arenas have no byte in common, and none with a header (`IsBlock.apart`, `IsBlock.apart_header`).
* `BlocksOk` says that each block of an arena is either live or on the free list of its descriptor,
  and that `free_cnt` counts the latter.  It is a statement about each page (`BlocksAt`), so that a
  change in one arena leaves what it says about the others (`BlocksAt.congr`).

A routine moves one block from one side to the other, or adds or drops an arena as a whole.  These
moves are stated on the headers, the free lists and the live blocks alone (`BlocksOk.take`,
`BlocksOk.give`, `BlocksOk.addArena`, `BlocksOk.dropArena`, `BlocksOk.addBig`, `BlocksOk.dropBig`).
-/

namespace Pintos

open Ranges Palloc
open Function (update update_of_ne update_self)

/-! ## Arenas and their blocks -/

/-- The headers are those at the start of the pages. -/
structure ArenasOk (arena : Nat → Option Arena) (pages : List Range) : Prop where
  apart : pages.Pairwise Range.Apart
  /-- What was handed out starts at a page. -/
  aligned : ∀ r ∈ pages, pgOfs r.start = 0
  ne_zero : ∀ r ∈ pages, r.start ≠ 0
  /-- It ends inside the address space. -/
  bounded : ∀ r ∈ pages, r.start + r.cnt ≤ 2 ^ 32
  /-- A header is at its start, and says how much it is. -/
  header : ∀ r ∈ pages, ∃ ar, arena r.start = some ar ∧ 0 < ar.pageCnt ∧
    r.cnt = ar.pageCnt * pgSize
  page : ∀ a ar, arena a = some ar → ⟨a, ar.pageCnt * pgSize⟩ ∈ pages

/-- There is a block of an arena at this address, with this size. -/
inductive IsBlock (arena : Nat → Option Arena) (a b size : Nat) : Prop
  /-- A block of an arena of a descriptor. -/
  | small (d : DescId) (freeCnt i : Nat) (har : arena a = some ⟨some d, freeCnt⟩)
      (hi : i < (desc d).blocksPerArena) (hb : b = blockAt d a i)
      (hsize : size = (desc d).blockSize)
  /-- A big block. -/
  | big (freeCnt : Nat) (har : arena a = some ⟨none, freeCnt⟩) (hb : b = a + arenaSize)
      (hsize : size = freeCnt * pgSize - arenaSize)

variable {d : DescId} {i : Nat}

theorem blockAt_lt (a : Nat) (hi : i < (desc d).blocksPerArena) :
    a + arenaSize ≤ blockAt d a i ∧ blockAt d a i + (desc d).blockSize ≤ a + pgSize := by
  obtain ⟨-, -, hfit⟩ := desc_spec d
  have hmul : (i + 1) * (desc d).blockSize ≤ (desc d).blocksPerArena * (desc d).blockSize :=
    Nat.mul_le_mul_right _ hi
  rw [Nat.succ_mul] at hmul
  rw [blockAt]
  omega

theorem blockAt_inj {a j : Nat} (h : blockAt d a i = blockAt d a j) : i = j := by
  have hpos : 0 < (desc d).blockSize := Nat.lt_of_lt_of_le (by decide) (desc_spec d).1
  exact Nat.eq_of_mul_eq_mul_right hpos (Nat.add_left_cancel h)

theorem header_inj {arena : Nat → Option Arena} {a freeCnt freeCnt' : Nat} {d' : DescId}
    (h : arena a = some ⟨some d, freeCnt⟩) (h' : arena a = some ⟨some d', freeCnt'⟩) :
    d' = d ∧ freeCnt' = freeCnt := by
  rw [h, Option.some_inj, Arena.mk.injEq, Option.some_inj] at h'
  exact ⟨h'.1.symm, h'.2.symm⟩

theorem pgRoundDown_eq {a b : Nat} (ha : pgOfs a = 0) (hle : a ≤ b) (hlt : b < a + pgSize) :
    pgRoundDown b = a := by
  simp only [pgOfs, pgRoundDown, pgSize] at *
  omega

namespace ArenasOk

variable {arena : Nat → Option Arena} {pages : List Range} {a : Nat} {ar : Arena}

section

variable (h : ArenasOk arena pages)
include h

theorem aligned_of_arena (har : arena a = some ar) : pgOfs a = 0 := h.aligned _ (h.page a ar har)

theorem ne_zero_of_arena (har : arena a = some ar) : a ≠ 0 := h.ne_zero _ (h.page a ar har)

theorem cnt_pos {r : Range} (hr : r ∈ pages) : 0 < r.cnt := by
  obtain ⟨ar, -, hpos, hcnt⟩ := h.header r hr
  exact hcnt ▸ Nat.mul_pos hpos (by decide)

theorem pageCnt_pos (har : arena a = some ar) : 0 < ar.pageCnt := by
  obtain ⟨ar', har', hpos, -⟩ := h.header _ (h.page a ar har)
  obtain rfl := Option.mem_unique har har'
  exact hpos

theorem arenas_apart (har : arena a = some ar) {a' : Nat} {ar' : Arena} (har' : arena a' = some ar')
    (hne : a ≠ a') : Range.Apart ⟨a, ar.pageCnt * pgSize⟩ ⟨a', ar'.pageCnt * pgSize⟩ := by
  refine Range.apart_of_mem h.apart (h.page a ar har) (h.page a' ar' har') fun heq => hne ?_
  exact congrArg Range.start heq

/-- **Pages are handed out**, with a header at their start. -/
theorem add (ar : Arena) (hne : a ≠ 0) (hal : pgOfs a = 0) (hpos : 0 < ar.pageCnt)
    (hbound : a + ar.pageCnt * pgSize ≤ 2 ^ 32)
    (hfresh : ∀ r ∈ pages, Range.Apart ⟨a, ar.pageCnt * pgSize⟩ r) :
    arena a = none ∧
      ArenasOk (update arena a (some ar)) (⟨a, ar.pageCnt * pgSize⟩ :: pages) := by
  have hstart : ∀ r ∈ pages, r.start ≠ a := by
    rintro r hr rfl
    exact hfresh r hr r.start (Range.has_start (Nat.mul_pos hpos (by decide)))
      (Range.has_start (h.cnt_pos hr))
  have hnone : arena a = none := by
    rcases har : arena a with _ | ar'
    · rfl
    · exact absurd rfl (hstart _ (h.page a ar' har))
  refine ⟨hnone, List.pairwise_cons.mpr ⟨hfresh, h.apart⟩, ?_, ?_, ?_, ?_, fun a' ar' har' => ?_⟩
  · exact List.forall_mem_cons.mpr ⟨hal, h.aligned⟩
  · exact List.forall_mem_cons.mpr ⟨hne, h.ne_zero⟩
  · exact List.forall_mem_cons.mpr ⟨hbound, h.bounded⟩
  · refine List.forall_mem_cons.mpr ⟨⟨ar, update_self .., hpos, rfl⟩, fun r hr => ?_⟩
    rw [update_of_ne (hstart r hr)]
    exact h.header r hr
  · rcases eq_or_ne a' a with rfl | hne'
    · rw [update_self, Option.some_inj] at har'
      exact har' ▸ .head _
    · rw [update_of_ne hne'] at har'
      exact .tail _ (h.page a' ar' har')

/-- **The pages of an arena go back.** -/
theorem drop (har : arena a = some ar) :
    ArenasOk (update arena a none) (pages.erase ⟨a, ar.pageCnt * pgSize⟩) := by
  have hmem := h.page a ar har
  have hperm := List.perm_cons_erase hmem
  have hapart := h.apart.perm hperm fun hxy => hxy.symm
  rw [List.pairwise_cons] at hapart
  have hstart : ∀ r ∈ pages.erase ⟨a, ar.pageCnt * pgSize⟩, r.start ≠ a := by
    rintro r hr rfl
    exact hapart.1 r hr r.start (Range.has_start (h.cnt_pos hmem))
      (Range.has_start (h.cnt_pos (List.mem_of_mem_erase hr)))
  refine ⟨hapart.2, fun r hr => h.aligned r (List.mem_of_mem_erase hr),
    fun r hr => h.ne_zero r (List.mem_of_mem_erase hr),
    fun r hr => h.bounded r (List.mem_of_mem_erase hr), fun r hr => ?_, fun a' ar' har' => ?_⟩
  · rw [update_of_ne (hstart r hr)]
    exact h.header r (List.mem_of_mem_erase hr)
  · rcases eq_or_ne a' a with rfl | hne'
    · rw [update_self] at har'
      nomatch har'
    · rw [update_of_ne hne'] at har'
      refine (List.mem_erase_of_ne fun heq => hne' ?_).mpr (h.page a' ar' har')
      exact congrArg Range.start heq

theorem set (har : arena a = some ar) (ar' : Arena) (hcnt : ar'.pageCnt = ar.pageCnt) :
    ArenasOk (update arena a (some ar')) pages := by
  refine ⟨h.apart, h.aligned, h.ne_zero, h.bounded, fun r hr => ?_, fun a' ar'' har' => ?_⟩
  · obtain ⟨ar'', har'', hpos, hsize⟩ := h.header r hr
    rcases eq_or_ne r.start a with heq | hne
    · rw [heq] at har''
      obtain rfl := Option.mem_unique har har''
      exact ⟨ar', by rw [heq, update_self], hcnt ▸ hpos, hcnt ▸ hsize⟩
    · exact ⟨ar'', by rw [update_of_ne hne, har''], hpos, hsize⟩
  · rcases eq_or_ne a' a with rfl | hne
    · rw [update_self, Option.some_inj] at har'
      rw [← har', hcnt]
      exact h.page a' ar har
    · rw [update_of_ne hne] at har'
      exact h.page a' ar'' har'

end

end ArenasOk

namespace IsBlock

variable {arena : Nat → Option Arena} {pages : List Range} {a b size : Nat}

section

variable (h : IsBlock arena a b size)
include h

theorem inside (hok : ArenasOk arena pages) :
    ∃ ar, arena a = some ar ∧ a + arenaSize ≤ b ∧ b < a + pgSize ∧ 0 < size ∧
      b + size ≤ a + ar.pageCnt * pgSize := by
  cases h with
  | small d freeCnt i har hi hb hsize =>
    obtain ⟨hlow, hhigh⟩ := blockAt_lt a hi
    obtain ⟨hlink, -⟩ := desc_spec d
    refine ⟨_, har, hb ▸ hlow, ?_, ?_, ?_⟩
    · simp only [linkSize] at hlink
      omega
    · simp only [linkSize] at hlink
      omega
    · rw [Arena.pageCnt_some, Nat.one_mul, hb, hsize]
      exact hhigh
  | big freeCnt har hb hsize =>
    have hpos : 0 < freeCnt := hok.pageCnt_pos har
    refine ⟨_, har, Nat.le_of_eq hb.symm, ?_, ?_, ?_⟩ <;>
      simp only [Arena.pageCnt_none, arenaSize, pgSize] at * <;> omega

theorem roundDown (hok : ArenasOk arena pages) : pgRoundDown b = a := by
  obtain ⟨ar, har, hlow, hhigh, -⟩ := h.inside hok
  exact pgRoundDown_eq (hok.aligned_of_arena har) (Nat.le_trans (Nat.le_add_right _ _) hlow) hhigh

theorem ne_zero (hok : ArenasOk arena pages) : b ≠ 0 := by
  obtain ⟨-, -, hlow, -⟩ := h.inside hok
  simp only [arenaSize] at hlow
  omega

end

variable {a' : Nat} {ar' : Arena}

section

variable (h : IsBlock arena a b size)
include h

theorem apart_arena (hok : ArenasOk arena pages) (har' : arena a' = some ar') (hne : a ≠ a') :
    Range.Apart ⟨b, size⟩ ⟨a', ar'.pageCnt * pgSize⟩ := by
  obtain ⟨ar, har, hlow, -, -, hhigh⟩ := h.inside hok
  refine (hok.arenas_apart har har' hne).mono (fun x hx => ?_) fun _ hx => hx
  exact ⟨Nat.le_trans (Nat.le_trans (Nat.le_add_right _ _) hlow) hx.1, hx.2.trans_le hhigh⟩

/-- **A block has no byte in common with another block.** -/
theorem apart (hok : ArenasOk arena pages) {b' size' : Nat}
    (h' : IsBlock arena a' b' size') (hne : b ≠ b') : Range.Apart ⟨b, size⟩ ⟨b', size'⟩ := by
  obtain ⟨ar, har, hlow, -, hpos, hhigh⟩ := h.inside hok
  obtain ⟨ar', har', hlow', -, hpos', hhigh'⟩ := h'.inside hok
  rcases eq_or_ne a a' with rfl | hne'
  · cases h with
    | small d freeCnt i har1 hi hb hsize =>
      cases h' with
      | small d' freeCnt' i' har2 hi' hb' hsize' =>
        obtain ⟨rfl, rfl⟩ := header_inj har1 har2
        have hidx : i ≠ i' := by
          rintro rfl
          exact hne (hb.trans hb'.symm)
        rw [Range.apart_iff, hb, hb', hsize, hsize', blockAt, blockAt]
        dsimp only
        -- the smaller index ends before the other starts
        rcases Nat.lt_or_gt_of_ne hidx with hlt | hlt
        · have hmul := Nat.mul_le_mul_right (desc d').blockSize (Nat.succ_le_of_lt hlt)
          rw [Nat.succ_mul] at hmul
          omega
        · have hmul := Nat.mul_le_mul_right (desc d').blockSize (Nat.succ_le_of_lt hlt)
          rw [Nat.succ_mul] at hmul
          omega
      | big freeCnt' har2 => rw [har1] at har2; nomatch har2
    | big freeCnt har1 hb hsize =>
      cases h' with
      | small d' freeCnt' i' har2 => rw [har1] at har2; nomatch har2
      | big freeCnt' har2 hb' => exact absurd (hb.trans hb'.symm) hne
  · refine (h.apart_arena hok har' hne').mono (fun _ hx => hx) fun x hx => ?_
    exact ⟨Nat.le_trans (Nat.le_trans (Nat.le_add_right _ _) hlow') hx.1, hx.2.trans_le hhigh'⟩

/-- **Nor with a header.** -/
theorem apart_header (hok : ArenasOk arena pages)
    (har' : arena a' = some ar') : Range.Apart ⟨b, size⟩ ⟨a', arenaSize⟩ := by
  rcases eq_or_ne a a' with rfl | hne
  · obtain ⟨-, -, hlow, -⟩ := h.inside hok
    exact Range.apart_iff.mpr (.inr (.inr (.inr hlow)))
  · refine (h.apart_arena hok har' hne).mono (fun _ hx => hx) fun x hx => ⟨hx.1, ?_⟩
    have hpos := hok.pageCnt_pos har'
    have hlt := hx.2
    simp only [arenaSize, pgSize] at hlt ⊢
    omega

end

theorem blockToArena_eq {h : Heap} (hb : IsBlock h.arena a b size) (hok : ArenasOk h.arena pages) :
    ∃ ar, h.arena a = some ar ∧ h.blockToArena b = some (a, ar) ∧ h.blockSize b = some size := by
  have hround := hb.roundDown hok
  obtain ⟨ar, har, hlow, hhigh, -⟩ := hb.inside hok
  have hne := hok.ne_zero_of_arena har
  have haligned := hok.aligned_of_arena har
  have hofs : pgOfs b = b - a := by
    simp only [pgOfs, pgSize] at *
    omega
  have hfind : h.blockToArena b = some (a, ar) := by
    simp only [Heap.blockToArena, hround, if_neg hne, har]
    cases hb with
    | small d freeCnt i har' hi hb hsize =>
      obtain rfl := Option.mem_unique har har'
      have hdiff : (pgOfs b + 2 ^ 32 - arenaSize) % 2 ^ 32 = i * (desc d).blockSize := by
        rw [hofs, hb, blockAt]
        rw [hb, blockAt] at hhigh
        simp only [pgSize] at *
        omega
      dsimp only
      rw [hdiff, Nat.mul_mod_left, if_pos rfl]
    | big freeCnt har' hb hsize =>
      obtain rfl := Option.mem_unique har har'
      rw [hofs, hb, Nat.add_sub_cancel_left, if_pos rfl]
  refine ⟨ar, har, hfind, ?_⟩
  rw [Heap.blockSize, hfind, Option.map_some]
  cases hb with
  | small d freeCnt i har' hi hb hsize =>
    obtain rfl := Option.mem_unique har har'
    rw [hsize]
  | big freeCnt har' hb hsize =>
    obtain rfl := Option.mem_unique har har'
    rw [hofs, hsize, hb, Nat.add_sub_cancel_left, Nat.mul_comm]

end IsBlock

/-! ## Live and free blocks -/

/-- The blocks of an arena that are on a free list. -/
def freeIdxs (freeList : DescId → List Nat) (d : DescId) (a : Nat) : Finset Nat :=
  (Finset.range (desc d).blocksPerArena).filter fun i => blockAt d a i ∈ freeList d

/-- What is live or free in the page at an address is a block of the arena there, and each block of
it is one or the other. -/
structure BlocksAt (arena : Nat → Option Arena) (freeList : DescId → List Nat) (live : List Nat)
    (a : Nat) : Prop where
  ofLive : ∀ b ∈ live, pgRoundDown b = a → ∃ size, IsBlock arena a b size
  /-- What is free is a block, of the free list's descriptor. -/
  ofFree : ∀ d, ∀ b ∈ freeList d, pgRoundDown b = a → ∃ freeCnt i,
    arena a = some ⟨some d, freeCnt⟩ ∧ i < (desc d).blocksPerArena ∧ b = blockAt d a i
  split : ∀ d freeCnt, arena a = some ⟨some d, freeCnt⟩ → ∀ i < (desc d).blocksPerArena,
    (blockAt d a i ∈ live ↔ blockAt d a i ∉ freeList d)
  /-- `free_cnt` counts the free ones. -/
  count : ∀ d freeCnt, arena a = some ⟨some d, freeCnt⟩ → freeCnt = (freeIdxs freeList d a).card
  big : ∀ freeCnt, arena a = some ⟨none, freeCnt⟩ → a + arenaSize ∈ live

/-- Every block is live or free, and on its list once. -/
structure BlocksOk (arena : Nat → Option Arena) (freeList : DescId → List Nat) (live : List Nat) :
    Prop where
  liveNodup : live.Nodup
  /-- No block is on a free list twice. -/
  freeNodup : ∀ d, (freeList d).Nodup
  /-- What is live or free is so in an arena. -/
  blocksAt : ∀ a, BlocksAt arena freeList live a

section Moves

variable {arena arena' : Nat → Option Arena} {pages : List Range} {freeList : DescId → List Nat}
  {live : List Nat} {a : Nat} {d : DescId} {live' : List Nat}

theorem pgRoundDown_blockAt {i : Nat} (ha : pgOfs a = 0) (hi : i < (desc d).blocksPerArena) :
    pgRoundDown (blockAt d a i) = a := by
  obtain ⟨hlow, hhigh⟩ := blockAt_lt a hi
  obtain ⟨hlink, -⟩ := desc_spec d
  refine pgRoundDown_eq ha (Nat.le_trans (Nat.le_add_right _ _) hlow) ?_
  simp only [linkSize] at hlink
  omega

theorem pgRoundDown_big (ha : pgOfs a = 0) : pgRoundDown (a + arenaSize) = a :=
  pgRoundDown_eq ha (Nat.le_add_right _ _) (Nat.add_lt_add_left (by decide) _)

theorem IsBlock.congr {b size : Nat} (h : IsBlock arena a b size) (ha : arena' a = arena a) :
    IsBlock arena' a b size := by
  cases h with
  | small d freeCnt i har hi hb hsize => exact .small d freeCnt i (ha.trans har) hi hb hsize
  | big freeCnt har hb hsize => exact .big freeCnt (ha.trans har) hb hsize

theorem BlocksAt.congr {freeList' : DescId → List Nat}
    (h : BlocksAt arena freeList live a) (hal : ∀ ar, arena a = some ar → pgOfs a = 0)
    (ha : arena' a = arena a) (hlive : ∀ x, pgRoundDown x = a → (x ∈ live' ↔ x ∈ live))
    (hfree : ∀ d x, pgRoundDown x = a → (x ∈ freeList' d ↔ x ∈ freeList d)) :
    BlocksAt arena' freeList' live' a := by
  refine ⟨fun b hb hround => ?_, fun d b hb hround => ?_, fun d freeCnt har i hi => ?_,
    fun d freeCnt har => ?_, fun freeCnt har => ?_⟩
  · obtain ⟨size, hblock⟩ := h.ofLive b ((hlive b hround).mp hb) hround
    exact ⟨size, hblock.congr ha⟩
  · obtain ⟨freeCnt, i, har, hi, heq⟩ := h.ofFree d b ((hfree d b hround).mp hb) hround
    exact ⟨freeCnt, i, ha.trans har, hi, heq⟩
  · rw [ha] at har
    have hround := pgRoundDown_blockAt (hal _ har) hi
    rw [hlive _ hround, hfree d _ hround]
    exact h.split d freeCnt har i hi
  · rw [ha] at har
    rw [h.count d freeCnt har, freeIdxs]
    congr 1
    refine Finset.filter_congr fun i hi => ?_
    exact (hfree d _ (pgRoundDown_blockAt (hal _ har) (Finset.mem_range.mp hi))).symm
  · rw [ha] at har
    exact (hlive _ (pgRoundDown_big (hal _ har))).mpr (h.big freeCnt har)

variable {l : List Nat}

/-- **A block changes sides.** -/
theorem BlocksOk.move {freeCnt freeCnt' i : Nat} (hok : ArenasOk arena pages)
    (h : BlocksOk arena freeList live) (har : arena a = some ⟨some d, freeCnt⟩)
    (hi : i < (desc d).blocksPerArena) (hlnodup : live'.Nodup) (hfnodup : l.Nodup)
    (hlive : ∀ x, x ≠ blockAt d a i → (x ∈ live' ↔ x ∈ live))
    (hfree : ∀ x, x ≠ blockAt d a i → (x ∈ l ↔ x ∈ freeList d))
    (hside : blockAt d a i ∈ live' ↔ blockAt d a i ∉ l)
    (hcount : freeCnt' = (freeIdxs (update freeList d l) d a).card) :
    BlocksOk (update arena a (some ⟨some d, freeCnt'⟩)) (update freeList d l)
      live' := by
  have hal := hok.aligned_of_arena har
  have hround := pgRoundDown_blockAt hal hi
  refine ⟨hlnodup, fun d' => ?_, fun a' => ?_⟩
  · rcases eq_or_ne d' d with rfl | hne
    · rw [update_self]
      exact hfnodup
    · rw [update_of_ne hne]
      exact h.freeNodup d'
  rcases eq_or_ne a' a with rfl | hne
  · have hself : update arena a' (some ⟨some d, freeCnt'⟩) a' = some ⟨some d, freeCnt'⟩ :=
      update_self ..
    refine ⟨fun b hb hb' => ?_, fun d' b hb hb' => ?_, fun d' n heq j hj => ?_, fun d' n heq => ?_,
      fun n heq => ?_⟩
    · rcases eq_or_ne b (blockAt d a' i) with rfl | hne
      · exact ⟨_, .small d freeCnt' i hself hi rfl rfl⟩
      · obtain ⟨size, hblock⟩ := (h.blocksAt a').ofLive b ((hlive b hne).mp hb) hb'
        cases hblock with
        | small d' n j har' hj hb hsize =>
          obtain ⟨rfl, -⟩ := header_inj har har'
          exact ⟨_, .small d' freeCnt' j hself hj hb hsize⟩
        | big n har' => rw [har] at har'; nomatch har'
    · rcases eq_or_ne d' d with rfl | hne
      · rw [update_self] at hb
        rcases eq_or_ne b (blockAt d' a' i) with rfl | hne
        · exact ⟨freeCnt', i, hself, hi, rfl⟩
        · obtain ⟨n, j, -, hj, heq⟩ := (h.blocksAt a').ofFree d' b ((hfree b hne).mp hb) hb'
          exact ⟨freeCnt', j, hself, hj, heq⟩
      · rw [update_of_ne hne] at hb
        obtain ⟨n, j, har', -⟩ := (h.blocksAt a').ofFree d' b hb hb'
        exact absurd (header_inj har har').1 hne
    · obtain ⟨rfl, rfl⟩ := header_inj hself heq
      rw [update_self]
      rcases eq_or_ne j i with rfl | hne
      · exact hside
      · have hne : blockAt d' a' j ≠ blockAt d' a' i := fun heq => hne (blockAt_inj heq)
        rw [hlive _ hne, hfree _ hne]
        exact (h.blocksAt a').split d' freeCnt har j hj
    · obtain ⟨rfl, rfl⟩ := header_inj hself heq
      exact hcount
    · rw [hself] at heq
      nomatch heq
  · refine (h.blocksAt a').congr (fun _ => hok.aligned_of_arena) (update_of_ne hne _ _)
      (fun x hx => hlive x ?_) fun d' x hx => ?_
    · rintro rfl
      exact hne (hx.symm.trans hround)
    · rcases eq_or_ne d' d with rfl | hne'
      · rw [update_self]
        refine hfree x ?_
        rintro rfl
        exact hne (hx.symm.trans hround)
      · rw [update_of_ne hne']

theorem freeIdxs_update (l : List Nat) :
    freeIdxs (update freeList d l) d a
      = (Finset.range (desc d).blocksPerArena).filter fun i => blockAt d a i ∈ l := by
  rw [freeIdxs, update_self]

/-- **The first free block is handed out.** -/
theorem BlocksOk.take {b : Nat} (hok : ArenasOk arena pages) (h : BlocksOk arena freeList live)
    (hl : freeList d = b :: l) :
    ∃ a freeCnt i, arena a = some ⟨some d, freeCnt + 1⟩ ∧ i < (desc d).blocksPerArena ∧
      b = blockAt d a i ∧ b ∉ live ∧
      BlocksOk (update arena a (some ⟨some d, freeCnt⟩)) (update freeList d l)
        (b :: live) := by
  have hmem : b ∈ freeList d := hl ▸ .head _
  obtain ⟨n, i, har, hi, hb⟩ := (h.blocksAt _).ofFree d b hmem rfl
  generalize pgRoundDown b = a at har hb
  subst hb
  have hnodup := h.freeNodup d
  rw [hl, List.nodup_cons] at hnodup
  have hlive : blockAt d a i ∉ live := fun hc => ((h.blocksAt a).split d n har i hi).mp hc hmem
  have hidx : i ∈ freeIdxs freeList d a := Finset.mem_filter.mpr ⟨Finset.mem_range.mpr hi, hmem⟩
  have herase : freeIdxs (update freeList d l) d a = (freeIdxs freeList d a).erase i := by
    rw [freeIdxs_update, freeIdxs, hl]
    ext j
    simp only [Finset.mem_filter, Finset.mem_erase, List.mem_cons]
    constructor
    · rintro ⟨hj, hin⟩
      refine ⟨?_, hj, .inr hin⟩
      rintro rfl
      exact hnodup.1 hin
    · rintro ⟨hne, hj, heq | hin⟩
      · exact absurd (blockAt_inj heq) hne
      · exact ⟨hj, hin⟩
  have hcard : n = (freeIdxs freeList d a).card := (h.blocksAt a).count d n har
  have hpos : 0 < n := hcard ▸ Finset.card_pos.mpr ⟨i, hidx⟩
  refine ⟨a, n - 1, i, by rw [Nat.sub_add_cancel hpos, har], hi, rfl, hlive, ?_⟩
  refine h.move hok har hi (List.nodup_cons.mpr ⟨hlive, h.liveNodup⟩) hnodup.2 (fun x hx => ?_)
    (fun x hx => ?_) (iff_of_true (.head _) hnodup.1) ?_
  · rw [List.mem_cons, or_iff_right hx]
  · rw [hl, List.mem_cons, or_iff_right hx]
  · rw [herase, Finset.card_erase_of_mem hidx, ← hcard]

/-- **A live block is freed.** -/
theorem BlocksOk.give {freeCnt i : Nat} (hok : ArenasOk arena pages)
    (h : BlocksOk arena freeList live) (har : arena a = some ⟨some d, freeCnt⟩)
    (hi : i < (desc d).blocksPerArena) (hmem : blockAt d a i ∈ live) :
    BlocksOk (update arena a (some ⟨some d, freeCnt + 1⟩))
      (update freeList d (blockAt d a i :: freeList d)) (live.erase (blockAt d a i)) := by
  have hfree := ((h.blocksAt a).split d freeCnt har i hi).mp hmem
  have hidx : i ∉ freeIdxs freeList d a := fun hc => hfree (Finset.mem_filter.mp hc).2
  have hinsert : freeIdxs (update freeList d (blockAt d a i :: freeList d)) d a
      = insert i (freeIdxs freeList d a) := by
    rw [freeIdxs_update, freeIdxs]
    ext j
    simp only [Finset.mem_filter, Finset.mem_insert, List.mem_cons, Finset.mem_range]
    constructor
    · rintro ⟨hj, heq | hmem⟩
      · exact .inl (blockAt_inj heq)
      · exact .inr ⟨hj, hmem⟩
    · rintro (rfl | ⟨hj, hmem⟩)
      · exact ⟨hi, .inl rfl⟩
      · exact ⟨hj, .inr hmem⟩
  refine h.move hok har hi (h.liveNodup.erase _) (List.nodup_cons.mpr ⟨hfree, h.freeNodup d⟩)
    (fun x hx => List.mem_erase_of_ne hx) (fun x hx => ?_)
    (iff_of_false (fun hc => (h.liveNodup.mem_erase_iff.mp hc).1 rfl)
      (not_not.mpr (.head _))) ?_
  · rw [List.mem_cons, or_iff_right hx]
  · rw [hinsert, Finset.card_insert_of_notMem hidx, ← (h.blocksAt a).count d freeCnt har]

section

variable {freeCnt : Nat} (h : BlocksOk arena freeList live)
  (har : arena a = some ⟨some d, freeCnt⟩)
include h har

theorem BlocksOk.freeCnt_eq_iff : freeCnt = (desc d).blocksPerArena ↔
    ∀ i < (desc d).blocksPerArena, blockAt d a i ∈ freeList d := by
  have hcard := Finset.card_filter_eq_iff (s := Finset.range (desc d).blocksPerArena)
    (p := fun i => blockAt d a i ∈ freeList d)
  rw [Finset.card_range] at hcard
  rw [(h.blocksAt a).count d freeCnt har, freeIdxs, hcard]
  exact forall_congr' fun i => by rw [Finset.mem_range]

theorem BlocksOk.freeCnt_le : freeCnt ≤ (desc d).blocksPerArena := by
  rw [(h.blocksAt a).count d freeCnt har, ← Finset.card_range (desc d).blocksPerArena]
  exact Finset.card_filter_le _ _

theorem BlocksOk.freeCnt_lt_iff : freeCnt < (desc d).blocksPerArena ↔
    ∃ i < (desc d).blocksPerArena, blockAt d a i ∈ live := by
  rw [Nat.lt_iff_le_and_ne, and_iff_right (h.freeCnt_le har), ne_eq, h.freeCnt_eq_iff har]
  constructor
  · intro hnot
    obtain ⟨i, hi⟩ := not_forall.mp hnot
    obtain ⟨hi, hfree⟩ := Classical.not_imp.mp hi
    exact ⟨i, hi, ((h.blocksAt a).split d freeCnt har i hi).mpr hfree⟩
  · rintro ⟨i, hi, hlive⟩ hall
    exact ((h.blocksAt a).split d freeCnt har i hi).mp hlive (hall i hi)

end

theorem BlocksOk.ne_of_none (h : BlocksOk arena freeList live) (hnone : arena a = none) :
    (∀ b ∈ live, pgRoundDown b ≠ a) ∧ ∀ d, ∀ b ∈ freeList d, pgRoundDown b ≠ a := by
  refine ⟨fun b hb hround => ?_, fun d b hb hround => ?_⟩
  · obtain ⟨size, hblock⟩ := (h.blocksAt a).ofLive b hb hround
    cases hblock with
    | small d freeCnt i har => rw [hnone] at har; nomatch har
    | big freeCnt har => rw [hnone] at har; nomatch har
  · obtain ⟨freeCnt, i, har, -⟩ := (h.blocksAt a).ofFree d b hb hround
    rw [hnone] at har
    nomatch har

section

variable (hok : ArenasOk arena pages) (h : BlocksOk arena freeList live)
include hok h

/-- **An arena is added**, with all its blocks free. -/
theorem BlocksOk.addArena (hnone : arena a = none) (hal : pgOfs a = 0) (hempty : freeList d = []) :
    BlocksOk (update arena a (some ⟨some d, (desc d).blocksPerArena⟩))
      (update freeList d ((List.range (desc d).blocksPerArena).map (blockAt d a)))
      live := by
  obtain ⟨hlive, hfree⟩ := h.ne_of_none hnone
  have hself : update arena a (some ⟨some d, (desc d).blocksPerArena⟩) a
      = some ⟨some d, (desc d).blocksPerArena⟩ := update_self ..
  have hmem : ∀ {x}, x ∈ (List.range (desc d).blocksPerArena).map (blockAt d a) ↔
      ∃ i < (desc d).blocksPerArena, blockAt d a i = x := by
    intro x
    simp only [List.mem_map, List.mem_range]
  refine ⟨h.liveNodup, fun d' => ?_, fun a' => ?_⟩
  · rcases eq_or_ne d' d with rfl | hne
    · rw [update_self]
      exact List.nodup_range.map fun _ _ => blockAt_inj
    · rw [update_of_ne hne]
      exact h.freeNodup d'
  rcases eq_or_ne a' a with rfl | hne
  · refine ⟨fun b hb hb' => absurd hb' (hlive b hb), fun d' b hb hb' => ?_, fun d' n heq j hj => ?_,
      fun d' n heq => ?_, fun n heq => ?_⟩
    · rcases eq_or_ne d' d with rfl | hne
      · rw [update_self, hmem] at hb
        obtain ⟨i, hi, rfl⟩ := hb
        exact ⟨_, i, hself, hi, rfl⟩
      · rw [update_of_ne hne] at hb
        exact absurd hb' (hfree d' b hb)
    · obtain ⟨rfl, rfl⟩ := header_inj hself heq
      rw [update_self, hmem]
      exact iff_of_false (fun hc => hlive _ hc (pgRoundDown_blockAt hal hj))
        (not_not.mpr ⟨j, hj, rfl⟩)
    · obtain ⟨rfl, rfl⟩ := header_inj hself heq
      rw [freeIdxs_update, Finset.filter_true_of_mem fun i hi => ?_, Finset.card_range]
      exact hmem.mpr ⟨i, Finset.mem_range.mp hi, rfl⟩
    · rw [hself] at heq
      nomatch heq
  · refine (h.blocksAt a').congr (fun _ => hok.aligned_of_arena) (update_of_ne hne _ _)
      (fun _ _ => .rfl) fun d' x hx => ?_
    rcases eq_or_ne d' d with rfl | hne'
    · rw [update_self, hmem, hempty]
      refine iff_of_false ?_ List.not_mem_nil
      rintro ⟨i, hi, rfl⟩
      exact hne (hx.symm.trans (pgRoundDown_blockAt hal hi))
    · rw [update_of_ne hne']

/-- **An arena is dropped**, with all its blocks free. -/
theorem BlocksOk.dropArena (har : arena a = some ⟨some d, (desc d).blocksPerArena⟩)
    (hnodup : l.Nodup)
    (hl : ∀ x, x ∈ l ↔ x ∈ freeList d ∧ ∀ i < (desc d).blocksPerArena, x ≠ blockAt d a i) :
    BlocksOk (update arena a none) (update freeList d l) live := by
  have hal := hok.aligned_of_arena har
  have hall := (h.freeCnt_eq_iff har).mp rfl
  have hself : update arena a none a = none := update_self ..
  refine ⟨h.liveNodup, fun d' => ?_, fun a' => ?_⟩
  · rcases eq_or_ne d' d with rfl | hne
    · rw [update_self]
      exact hnodup
    · rw [update_of_ne hne]
      exact h.freeNodup d'
  rcases eq_or_ne a' a with rfl | hne
  · refine ⟨fun b hb hb' => ?_, fun d' b hb hb' => ?_, fun d' n heq => ?_, fun d' n heq => ?_,
      fun n heq => ?_⟩
    · obtain ⟨size, hblock⟩ := (h.blocksAt a').ofLive b hb hb'
      cases hblock with
      | small d' n i har' hi hb' =>
        obtain ⟨rfl, rfl⟩ := header_inj har har'
        rw [hb'] at hb
        exact absurd (hall i hi) (((h.blocksAt a').split d' _ har i hi).mp hb)
      | big n har' => rw [har] at har'; nomatch har'
    · rcases eq_or_ne d' d with rfl | hne
      · rw [update_self, hl] at hb
        obtain ⟨n, i, -, hi, heq⟩ := (h.blocksAt a').ofFree d' b hb.1 hb'
        exact absurd heq (hb.2 i hi)
      · rw [update_of_ne hne] at hb
        obtain ⟨n, i, har', -⟩ := (h.blocksAt a').ofFree d' b hb hb'
        exact absurd (header_inj har har').1 hne
    all_goals
      rw [hself] at heq
      nomatch heq
  · refine (h.blocksAt a').congr (fun _ => hok.aligned_of_arena) (update_of_ne hne _ _)
      (fun _ _ => .rfl) fun d' x hx => ?_
    rcases eq_or_ne d' d with rfl | hne'
    · rw [update_self, hl, and_iff_left]
      rintro i hi rfl
      exact hne (hx.symm.trans (pgRoundDown_blockAt hal hi))
    · rw [update_of_ne hne']

/-- **A big block is handed out.** -/
theorem BlocksOk.addBig (freeCnt : Nat) (hnone : arena a = none) (hal : pgOfs a = 0) :
    a + arenaSize ∉ live ∧
      BlocksOk (update arena a (some ⟨none, freeCnt⟩)) freeList
        ((a + arenaSize) :: live) := by
  obtain ⟨hlive, hfree⟩ := h.ne_of_none hnone
  have hself : update arena a (some ⟨none, freeCnt⟩) a = some ⟨none, freeCnt⟩ := update_self ..
  have hnew : a + arenaSize ∉ live := fun hc => hlive _ hc (pgRoundDown_big hal)
  refine ⟨hnew, List.nodup_cons.mpr ⟨hnew, h.liveNodup⟩, h.freeNodup, fun a' => ?_⟩
  rcases eq_or_ne a' a with rfl | hne
  · refine ⟨fun b hb hb' => ?_, fun d' b hb hb' => absurd hb' (hfree d' b hb), fun d' n heq => ?_,
      fun d' n heq => ?_, fun n heq => .head _⟩
    · rcases List.mem_cons.mp hb with rfl | hb
      · exact ⟨_, .big freeCnt hself rfl rfl⟩
      · exact absurd hb' (hlive b hb)
    all_goals
      rw [hself] at heq
      nomatch heq
  · refine (h.blocksAt a').congr (fun _ => hok.aligned_of_arena) (update_of_ne hne _ _)
      (fun x hx => ?_) fun _ _ _ => .rfl
    rw [List.mem_cons, or_iff_right]
    rintro rfl
    exact hne (hx.symm.trans (pgRoundDown_big hal))

/-- **A big block is freed.** -/
theorem BlocksOk.dropBig {freeCnt : Nat} (har : arena a = some ⟨none, freeCnt⟩) :
    BlocksOk (update arena a none) freeList (live.erase (a + arenaSize)) := by
  have hal := hok.aligned_of_arena har
  have hself : update arena a none a = none := update_self ..
  refine ⟨h.liveNodup.erase _, h.freeNodup, fun a' => ?_⟩
  rcases eq_or_ne a' a with rfl | hne
  · refine ⟨fun b hb hb' => ?_, fun d' b hb hb' => ?_, fun d' n heq => ?_, fun d' n heq => ?_,
      fun n heq => ?_⟩
    · rw [h.liveNodup.mem_erase_iff] at hb
      obtain ⟨size, hblock⟩ := (h.blocksAt a').ofLive b hb.2 hb'
      cases hblock with
      | small d' n i har' => rw [har] at har'; nomatch har'
      | big n har' heq => exact absurd heq hb.1
    · obtain ⟨n, i, har', -⟩ := (h.blocksAt a').ofFree d' b hb hb'
      rw [har] at har'
      nomatch har'
    all_goals
      rw [hself] at heq
      nomatch heq
  · refine (h.blocksAt a').congr (fun _ => hok.aligned_of_arena) (update_of_ne hne _ _)
      (fun x hx => List.mem_erase_of_ne ?_) fun _ _ _ => .rfl
    rintro rfl
    exact hne (hx.symm.trans (pgRoundDown_big hal))

end

end Moves

end Pintos
