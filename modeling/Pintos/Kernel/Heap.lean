import Pintos.Kernel.Arenas

/-!
# The heap keeps live blocks apart

What `threads/malloc.c` promises, in every state that calls lead to (`HeapOk`, `heap_ok`).

The invariant between calls (`HeapInv`) is that of `Kernel/Arenas.lean`, together with the fact that
no arena of a descriptor is free as a whole.  Each routine has one lemma that says that it has a
result, how the live blocks change, and that the blocks that stay keep their bytes (`Keeps`):
`malloc_spec`, `free_spec`, `calloc_spec` and `realloc_spec`.  Inside `malloc` and `free` there is a
state in which an arena is free as a whole, just after it was added and just before it is dropped
(`HeapInv.addArena`, `dropArena_spec`).  `palloc_serves_heap` is about the pages.
-/

namespace Pintos

open Ranges Palloc
open Function (update update_eq_self update_idem update_of_ne update_self)
open List (map_cons mem_cons_of_mem mem_cons_self mem_map_of_mem mem_of_mem_erase)

/-! ## The invariant -/

/-- Between calls, every arena of a descriptor has a live block. -/
structure HeapInv (h : Heap) (live : List Nat) : Prop where
  /-- The headers are those of the pages. -/
  arenas : ArenasOk h.arena h.pages
  blocks : BlocksOk h.arena h.freeList live
  /-- `free_cnt` does not count all blocks. -/
  used : ∀ a d freeCnt, h.arena a = some ⟨some d, freeCnt⟩ → freeCnt < (desc d).blocksPerArena

/-- A block keeps its size and its bytes. -/
def Keeps (h h' : Heap) (b : Nat) : Prop :=
  ∀ size, h.blockSize b = some size →
    h'.blockSize b = some size ∧ ∀ i < size, h'.bytes (b + i) = h.bytes (b + i)

theorem Keeps.trans {h h' h'' : Heap} {b : Nat} (h1 : Keeps h h' b) (h2 : Keeps h' h'' b) :
    Keeps h h'' b := by
  intro size hsize
  obtain ⟨hsize', hbytes⟩ := h1 size hsize
  obtain ⟨hsize'', hbytes'⟩ := h2 size hsize'
  exact ⟨hsize'', fun i hi => (hbytes' i hi).trans (hbytes i hi)⟩

section Frame

variable {h h' : Heap} {live : List Nat} {a b size : Nat} {d : DescId}

theorem Keeps.of_block (hok : ArenasOk h.arena h.pages) (hok' : ArenasOk h'.arena h'.pages)
    (hb : IsBlock h.arena a b size) (hb' : IsBlock h'.arena a b size)
    (hbytes : ∀ x, Range.Has ⟨b, size⟩ x → h'.bytes x = h.bytes x) : Keeps h h' b := by
  intro size' hsize'
  obtain ⟨-, -, -, hsize⟩ := hb.blockToArena_eq hok
  obtain rfl := Option.mem_unique hsize hsize'
  obtain ⟨-, -, -, hsize'⟩ := hb'.blockToArena_eq hok'
  exact ⟨hsize', fun i hi => hbytes _ ⟨Nat.le_add_right _ _, Nat.add_lt_add_left hi _⟩⟩

variable {arena : Nat → Option Arena} {freeList : DescId → List Nat}

theorem IsBlock.set {a' freeCnt freeCnt' : Nat} (hb : IsBlock arena a' b size)
    (har : arena a = some ⟨some d, freeCnt⟩) :
    IsBlock (update arena a (some ⟨some d, freeCnt'⟩)) a' b size := by
  rcases eq_or_ne a' a with rfl | hne
  · cases hb with
    | small d' n i har' hi hb hsize =>
      obtain ⟨rfl, rfl⟩ := header_inj har har'
      exact .small d' freeCnt' i (update_self ..) hi hb hsize
    | big n har' => rw [har] at har'; nomatch har'
  · exact hb.congr (update_of_ne hne _ _)

theorem BlocksOk.isBlock (hok : BlocksOk arena freeList live)
    (hb : b ∈ live) : ∃ size, IsBlock arena (pgRoundDown b) b size :=
  (hok.blocksAt _).ofLive b hb rfl

theorem BlocksOk.isBlock_free (hok : BlocksOk arena freeList live)
    (hb : b ∈ freeList d) : IsBlock arena (pgRoundDown b) b (desc d).blockSize := by
  obtain ⟨freeCnt, i, har, hi, heq⟩ := (hok.blocksAt _).ofFree d b hb rfl
  exact .small d freeCnt i har hi heq rfl

/-- **A live block has no byte in common with a free one.** -/
theorem BlocksOk.live_apart_free {pages : List Range} {b' : Nat}
    (hok : ArenasOk arena pages) (h : BlocksOk arena freeList live) (hb : b ∈ live)
    (hblock : IsBlock arena a b size) (hb' : b' ∈ freeList d) :
    Range.Apart ⟨b, size⟩ ⟨b', (desc d).blockSize⟩ := by
  refine hblock.apart hok (h.isBlock_free hb') ?_
  rintro rfl
  obtain ⟨freeCnt, i, har, hi, heq⟩ := (h.blocksAt _).ofFree d b hb' rfl
  rw [heq] at hb hb'
  exact ((h.blocksAt _).split d freeCnt har i hi).mp hb hb'

theorem has_block_of_link {x : Nat} (hx : Range.Has ⟨b, linkSize⟩ x) :
    Range.Has ⟨b, (desc d).blockSize⟩ x :=
  ⟨hx.1, hx.2.trans_le (Nat.add_le_add_left (desc_spec d).1 _)⟩

theorem HeapInv.ne_zero (hinv : HeapInv h live) (hb : b ∈ live) : b ≠ 0 := by
  obtain ⟨size, hblock⟩ := hinv.blocks.isBlock hb
  exact hblock.ne_zero hinv.arenas

theorem blockSize_congr (harena : h'.arena = h.arena) (b : Nat) :
    h'.blockSize b = h.blockSize b := by
  simp only [Heap.blockSize, Heap.blockToArena, harena]

theorem HeapInv.clean (hinv : HeapInv h live) (hb : b ∈ live) (hblock : IsBlock h.arena a b size)
    {r : Range} (hr : ∀ x, r.Has x → Range.Has ⟨b, size⟩ x) : h.Clean r := by
  refine ⟨fun s hs => ?_, fun d b' hb' => ?_⟩
  · obtain ⟨ar, har, -⟩ := hinv.arenas.header s hs
    exact (hblock.apart_header hinv.arenas har).mono hr fun _ hx => hx
  · exact (hinv.blocks.live_apart_free hinv.arenas hb hblock hb').mono hr fun _ => has_block_of_link

end Frame

/-! ## `malloc` -/

section Malloc

variable {env : HeapEnv} {h : Heap} {live : List Nat} {d : DescId} {a : Nat}

theorem blocksPerArena_lt (d : DescId) : (desc d).blocksPerArena < 2 ^ 32 := by
  revert d
  decide

theorem addBlocks_spec (env : HeapEnv) {freeCnt : Nat} (ha : a ≠ 0) :
    ∀ (idxs : List Nat) (h : Heap), h.arena a = some ⟨some d, freeCnt⟩ →
    (∀ i ∈ idxs, i < (desc d).blocksPerArena) →
    ∃ h', addBlocks env d a idxs h = some h' ∧ h'.arena = h.arena ∧ h'.pages = h.pages ∧
      h'.freeList = update h.freeList d (h.freeList d ++ idxs.map (blockAt d a)) ∧
      ∀ x, (∀ b ∈ h.freeList d ++ idxs.map (blockAt d a), ¬ Range.Has ⟨b, linkSize⟩ x) →
        h'.bytes x = h.bytes x
  | [], h, _, _ => by
    refine ⟨h, rfl, rfl, rfl, ?_, fun _ _ => rfl⟩
    rw [List.map_nil, List.append_nil, update_eq_self]
  | i :: idxs, h, har, hidxs => by
    obtain ⟨hi, hidxs⟩ := List.forall_mem_cons.mp hidxs
    have hblock : h.arenaToBlock a i = some (blockAt d a i) := by
      simp only [Heap.arenaToBlock, if_neg ha, har, if_pos hi]
    obtain ⟨h', hrun, harena, hpages, hfree, hbytes⟩ := addBlocks_spec env ha idxs
      (h.setFree d (h.freeList d ++ [blockAt d a i]) env.junk) har hidxs
    have hlist : (h.setFree d (h.freeList d ++ [blockAt d a i]) env.junk).freeList d
        ++ idxs.map (blockAt d a) = h.freeList d ++ (i :: idxs).map (blockAt d a) := by
      rw [h.freeList_setFree, List.append_assoc, List.singleton_append, map_cons]
    rw [hlist] at hfree hbytes
    refine ⟨h', ?_, harena, hpages, ?_, fun x hx => (hbytes x hx).trans (if_neg ?_)⟩
    · rw [addBlocks, List.foldlM_cons, hblock]
      exact hrun
    · rw [hfree]
      exact update_idem ..
    · rintro ⟨b, hb, hlink⟩
      refine hx b ?_ hlink
      rw [List.mem_append, List.mem_singleton] at hb
      rcases hb with hb | rfl
      · exact List.mem_append_left _ hb
      · exact List.mem_append_right _ mem_cons_self

/-- **The first free block is handed out.** -/
theorem popBlock_spec (env : HeapEnv) {b : Nat} {l : List Nat} (hok : ArenasOk h.arena h.pages)
    (hblocks : BlocksOk h.arena h.freeList live) (hl : h.freeList d = b :: l)
    (hused : ∀ a' d' n, h.arena a' = some ⟨some d', n⟩ → a' ≠ pgRoundDown b →
      n < (desc d').blocksPerArena) :
    ∃ h', popBlock env d h = some (b, h') ∧ HeapInv h' (b :: live) ∧ b ∉ live ∧ b ≠ 0 ∧
      h'.blockSize b = some (desc d).blockSize ∧ ∀ x ∈ live, Keeps h h' x := by
  obtain ⟨a, n, i, har, hi, hb, hnew, hblocks'⟩ := hblocks.take hok hl
  have hround : pgRoundDown b = a := hb ▸ pgRoundDown_blockAt (hok.aligned_of_arena har) hi
  have hblock : IsBlock h.arena a b (desc d).blockSize := .small d (n + 1) i har hi hb rfl
  have hle := hblocks.freeCnt_le har
  have hlt := blocksPerArena_lt d
  have hok' := hok.set har ⟨some d, n⟩ rfl
  have hcnt : (n + 1 + 2 ^ 32 - 1) % 2 ^ 32 = n := by omega
  obtain ⟨ar, har', hfind, -⟩ := IsBlock.blockToArena_eq (h := h.setFree d l env.junk) hblock hok
  obtain rfl : ar = ⟨some d, n + 1⟩ := Option.mem_unique har' har
  refine ⟨(h.setFree d l env.junk).setArena a ⟨some d, n⟩ env.junk, ?_,
    ⟨hok', hblocks', fun a' d' n' har'' => ?_⟩, hnew, ?_, ?_, fun x hx => ?_⟩
  · simp only [popBlock, hl, hfind, Option.map_some, hcnt]
  · rcases eq_or_ne a' a with rfl | hne
    · have hself : update h.arena a' (some ⟨some d, n⟩) a' = some ⟨some d, n⟩ := update_self ..
      obtain ⟨rfl, rfl⟩ := header_inj hself har''
      exact hle
    · exact hused a' d' n' ((update_of_ne hne _ _).symm.trans har'')
        fun heq => hne (heq.trans hround)
  · exact hblock.ne_zero hok
  · obtain ⟨-, -, -, hsize⟩ := IsBlock.blockToArena_eq
      (h := (h.setFree d l env.junk).setArena a ⟨some d, n⟩ env.junk) (hblock.set har) hok'
    exact hsize
  · obtain ⟨size, hx'⟩ := hblocks.isBlock hx
    refine Keeps.of_block hok hok' hx' (hx'.set har) fun y hy => (if_neg ?_).trans (if_neg ?_)
    · exact hx'.apart_header hok har y hy
    · rintro ⟨b', hb', hlink⟩
      have hmem : b' ∈ h.freeList d := hl ▸ mem_cons_of_mem _ hb'
      exact hblocks.live_apart_free hok hx hx' hmem y hy (has_block_of_link hlink)

/-- **A new arena**, with its blocks on the free list. -/
theorem HeapInv.addArena (hinv : HeapInv h live) (env : HeapEnv) (hempty : h.freeList d = [])
    (hne : a ≠ 0) (hal : pgOfs a = 0) (hbound : a + 1 * pgSize ≤ 2 ^ 32)
    (hfresh : ∀ r ∈ h.pages, Range.Apart ⟨a, 1 * pgSize⟩ r) :
    ∃ h', addBlocks env d a (List.range (desc d).blocksPerArena)
        ((h.getPages a 1).setArena a ⟨some d, (desc d).blocksPerArena⟩ env.junk) = some h' ∧
      ArenasOk h'.arena h'.pages ∧ BlocksOk h'.arena h'.freeList live ∧
      (∃ l, h'.freeList d = blockAt d a 0 :: l) ∧
      (∀ a' d' n, h'.arena a' = some ⟨some d', n⟩ → a' ≠ a → n < (desc d').blocksPerArena) ∧
      ∀ x ∈ live, Keeps h h' x := by
  obtain ⟨hnone, hok'⟩ := hinv.arenas.add ⟨some d, (desc d).blocksPerArena⟩ hne hal Nat.one_pos
    hbound hfresh
  have hself : update h.arena a (some ⟨some d, (desc d).blocksPerArena⟩) a
    = some ⟨some d, (desc d).blocksPerArena⟩ := update_self ..
  have hblocks' := hinv.blocks.addArena hinv.arenas hnone hal hempty
  obtain ⟨h', hrun, harena, hpages, hfree, hbytes⟩ := addBlocks_spec env hne
    (List.range (desc d).blocksPerArena)
    ((h.getPages a 1).setArena a ⟨some d, (desc d).blocksPerArena⟩ env.junk) hself
    fun i hi => List.mem_range.mp hi
  change h'.arena = update h.arena a _ at harena
  change h'.freeList = update h.freeList d (h.freeList d ++ _) at hfree
  rw [hempty] at hfree
  have hok1 : ArenasOk h'.arena h'.pages := by rw [harena, hpages]; exact hok'
  have hblocks1 : BlocksOk h'.arena h'.freeList live := by rw [harena, hfree]; exact hblocks'
  refine ⟨h', hrun, hok1, hblocks1, ?_, fun a' d' n har hne' => ?_, fun x hx => ?_⟩
  · obtain ⟨n, hn⟩ := Nat.exists_eq_succ_of_ne_zero (Nat.ne_of_gt (desc_spec d).2.1)
    rw [hfree, update_self, hn, List.range_succ_eq_map]
    exact ⟨_, rfl⟩
  · rw [harena, update_of_ne hne'] at har
    exact hinv.used a' d' n har
  · obtain ⟨size, hx'⟩ := hinv.blocks.isBlock hx
    have hne' := (hinv.blocks.ne_of_none hnone).1 x hx
    have hx1 : IsBlock h'.arena (pgRoundDown x) x size :=
      hx'.congr (by rw [harena, update_of_ne hne'])
    refine Keeps.of_block hinv.arenas hok1 hx' hx1 fun y hy => (hbytes y fun b hb hlink => ?_).trans
      (if_neg ?_)
    · change b ∈ h.freeList d ++ _ at hb
      rw [hempty] at hb
      have hmem : b ∈ h'.freeList d := by rw [hfree, update_self]; exact hb
      exact hblocks1.live_apart_free hok1 hx hx1 hmem y hy (has_block_of_link hlink)
    · exact hx1.apart_header hok1 (harena ▸ hself) y hy

variable {size : Nat}

theorem descFor_some (hd : descFor size = some d) : size ≤ (desc d).blockSize := by
  simpa using List.find?_some hd

/-- What a call leads to that hands out a block. -/
structure Handed (h : Heap) (live : List Nat) (size p : Nat) (h' : Heap) : Prop where
  ne_zero : p ≠ 0
  /-- It was not asked for with 0 bytes. -/
  pos : 0 < size
  inv : HeapInv h' (p :: live)
  new : p ∉ live
  /-- It is as large as it was asked for. -/
  large : ∃ n, h'.blockSize p = some n ∧ size ≤ n
  /-- The other blocks are as they were. -/
  keeps : ∀ x ∈ live, Keeps h h' x

/-- **`malloc`** returns a null pointer, or a block that was not live, and leaves the live blocks
alone. -/
theorem malloc_spec (hinv : HeapInv h live) (henv : EnvOk h env) (hsize : size ≤ 2 ^ 32 - 4108) :
    ∃ p h', malloc env size h = some (p, h') ∧
      (p = 0 ∧ h' = h ∨ Handed h live size p h') := by
  rw [malloc]
  split
  next => exact ⟨0, h, rfl, .inl ⟨rfl, rfl⟩⟩
  next hpos =>
  have hpos : 0 < size := Nat.pos_of_ne_zero hpos
  split
  next hd =>
    obtain ⟨pageCnt, hpageCnt⟩ :
        ∃ n, n = (size + arenaSize + pgSize - 1) % 2 ^ 32 / pgSize := ⟨_, rfl⟩
    have hcnt : 0 < pageCnt ∧ size + arenaSize ≤ pageCnt * pgSize := by
      simp only [arenaSize, pgSize] at hpageCnt ⊢
      omega
    rw [← hpageCnt]
    rcases henv pageCnt hcnt.1 with hnull | ⟨hne, hal, hbound, hfresh⟩
    · rw [if_pos hnull]
      exact ⟨0, h, rfl, .inl ⟨rfl, rfl⟩⟩
    · rw [if_neg hne]
      generalize env.palloc pageCnt = a at hne hal hbound hfresh
      obtain ⟨hnone, hok'⟩ := hinv.arenas.add ⟨none, pageCnt⟩ hne hal hcnt.1 hbound hfresh
      obtain ⟨hnew, hblocks'⟩ := hinv.blocks.addBig hinv.arenas pageCnt hnone hal
      have hself : update h.arena a (some ⟨none, pageCnt⟩) a = some ⟨none, pageCnt⟩ :=
        update_self ..
      refine ⟨_, _, rfl, .inr ⟨by omega, hpos, ⟨hok', hblocks', fun a' d' n har => ?_⟩, hnew, ?_,
        fun x hx => ?_⟩⟩
      · rcases eq_or_ne a' a with rfl | hne'
        · exact absurd (hself.symm.trans har) (by simp)
        · exact hinv.used a' d' n ((update_of_ne hne' _ _).symm.trans har)
      · obtain ⟨-, -, -, hn⟩ := IsBlock.blockToArena_eq
          (h := (h.getPages a pageCnt).setArena a ⟨none, pageCnt⟩ env.junk)
          (.big pageCnt hself rfl rfl) hok'
        exact ⟨_, hn, by omega⟩
      · obtain ⟨n, hx'⟩ := hinv.blocks.isBlock hx
        have hne' := (hinv.blocks.ne_of_none hnone).1 x hx
        refine Keeps.of_block hinv.arenas hok' hx' (hx'.congr (update_of_ne hne' _ _))
          fun y hy => if_neg ?_
        exact (hx'.congr (update_of_ne hne' _ _)).apart_header hok' hself y hy
  next d hd =>
    have hle := descFor_some hd
    split
    next hempty =>
      rcases henv 1 Nat.one_pos with hnull | ⟨hne, hal, hbound, hfresh⟩
      · rw [if_pos hnull]
        exact ⟨0, h, rfl, .inl ⟨rfl, rfl⟩⟩
      · rw [if_neg hne]
        generalize env.palloc 1 = a at hne hal hbound hfresh
        obtain ⟨h1, hrun, hok1, hblocks1, ⟨l, hl⟩, hused1, hkeep1⟩ :=
          hinv.addArena env hempty hne hal hbound hfresh
        have hround := pgRoundDown_blockAt hal (desc_spec d).2.1
        obtain ⟨h', hpop, hinv', hnew, hne', hn, hkeep⟩ := popBlock_spec env hok1 hblocks1 hl
          fun a' d' n har hne => hused1 a' d' n har (hround ▸ hne)
        refine ⟨_, h', ?_, .inr ⟨hne', hpos, hinv', hnew, ⟨_, hn, hle⟩, fun x hx => ?_⟩⟩
        · rw [hrun]
          exact hpop
        · exact (hkeep1 x hx).trans (hkeep x hx)
    next hcons =>
      obtain ⟨b, l, hl⟩ := List.exists_cons_of_ne_nil hcons
      obtain ⟨h', hrun, hinv', hnew, hne, hn, hkeep⟩ := popBlock_spec env hinv.arenas
        hinv.blocks hl fun a' d' n har _ => hinv.used a' d' n har
      exact ⟨b, h', hrun, .inr ⟨hne, hpos, hinv', hnew, ⟨_, hn, hle⟩, hkeep⟩⟩

end Malloc

/-! ## `free` -/

section Free

variable {env : HeapEnv} {h : Heap} {live : List Nat} {d : DescId} {a : Nat}

theorem removeBlocks_spec (env : HeapEnv) {freeCnt : Nat} (ha : a ≠ 0) :
    ∀ (idxs : List Nat) (h : Heap), h.arena a = some ⟨some d, freeCnt⟩ →
      (∀ i ∈ idxs, i < (desc d).blocksPerArena) → idxs.Nodup → (h.freeList d).Nodup →
      (∀ i ∈ idxs, blockAt d a i ∈ h.freeList d) →
      ∃ h' l, removeBlocks env d a idxs h = some h' ∧ h'.arena = h.arena ∧ h'.pages = h.pages ∧
        h'.freeList = update h.freeList d l ∧ l.Nodup ∧
        (∀ x, x ∈ l ↔ x ∈ h.freeList d ∧ ∀ i ∈ idxs, x ≠ blockAt d a i) ∧
        ∀ x, (∀ b ∈ h.freeList d, ¬ Range.Has ⟨b, linkSize⟩ x) → h'.bytes x = h.bytes x
  | [], h, _, _, _, hnodup, _ => by
    refine ⟨h, h.freeList d, rfl, rfl, rfl, (update_eq_self ..).symm, hnodup, fun x => ?_,
      fun _ _ => rfl⟩
    exact (and_iff_left nofun).symm
  | i :: idxs, h, har, hidxs, hdistinct, hnodup, hmem => by
    obtain ⟨hi, hidxs⟩ := List.forall_mem_cons.mp hidxs
    obtain ⟨hmemi, hmem⟩ := List.forall_mem_cons.mp hmem
    obtain ⟨hnew, hdistinct⟩ := List.nodup_cons.mp hdistinct
    have hblock : h.arenaToBlock a i = some (blockAt d a i) := by
      simp only [Heap.arenaToBlock, if_neg ha, har, if_pos hi]
    have hlist : (h.setFree d ((h.freeList d).erase (blockAt d a i)) env.junk).freeList d
        = (h.freeList d).erase (blockAt d a i) := h.freeList_setFree ..
    have hnodup' :
        ((h.setFree d ((h.freeList d).erase (blockAt d a i)) env.junk).freeList d).Nodup := by
      rw [hlist]
      exact hnodup.erase _
    have hmem' : ∀ j ∈ idxs, blockAt d a j
        ∈ (h.setFree d ((h.freeList d).erase (blockAt d a i)) env.junk).freeList d := by
      intro j hj
      have hne : blockAt d a j ≠ blockAt d a i := by
        intro heq
        obtain rfl := blockAt_inj heq
        exact hnew hj
      rw [hlist, List.mem_erase_of_ne hne]
      exact hmem j hj
    obtain ⟨h', l, hrun, harena, hpages, hfree, hlnodup, hl, hbytes⟩ :=
      removeBlocks_spec env ha idxs (h.setFree d ((h.freeList d).erase (blockAt d a i)) env.junk)
        har hidxs hdistinct hnodup' hmem'
    rw [hlist] at hl hbytes
    refine ⟨h', l, ?_, harena, hpages, ?_, hlnodup, fun x => ?_, fun x hx => ?_⟩
    · rw [removeBlocks, List.foldlM_cons, hblock, Option.bind_some, if_pos hmemi]
      exact hrun
    · rw [hfree]
      exact update_idem ..
    · rw [hl, hnodup.mem_erase_iff, List.forall_mem_cons]
      exact ⟨fun ⟨⟨hne, hx⟩, hidxs⟩ => ⟨hx, hne, hidxs⟩, fun ⟨hx, hne, hidxs⟩ => ⟨⟨hne, hx⟩, hidxs⟩⟩
    · refine (hbytes x fun b hb => hx b (mem_of_mem_erase hb)).trans (if_neg ?_)
      rintro ⟨b, hb, hlink⟩
      exact hx b (mem_of_mem_erase hb) hlink

/-- **The last block of an arena is freed**, and the arena with it. -/
theorem dropArena_spec (env : HeapEnv) (hok : ArenasOk h.arena h.pages)
    (hblocks : BlocksOk h.arena h.freeList live)
    (har : h.arena a = some ⟨some d, (desc d).blocksPerArena⟩)
    (hused : ∀ a' d' n, h.arena a' = some ⟨some d', n⟩ → a' ≠ a → n < (desc d').blocksPerArena) :
    ∃ h', ((removeBlocks env d a (List.range (desc d).blocksPerArena) h).bind fun h =>
        h.freePages a 1) = some h' ∧ HeapInv h' live ∧ ∀ x ∈ live, Keeps h h' x := by
  have hall := (hblocks.freeCnt_eq_iff har).mp rfl
  obtain ⟨h1, l, hrun, harena, hpages, hfree, hnodup, hl, hbytes⟩ := removeBlocks_spec env
    (hok.ne_zero_of_arena har) (List.range (desc d).blocksPerArena) h har
    (fun i hi => List.mem_range.mp hi) List.nodup_range (hblocks.freeNodup d)
    fun i hi => hall i (List.mem_range.mp hi)
  have hmem := hok.page a _ har
  have hok' := hok.drop har
  rw [← hpages] at hmem
  have hblocks' := hblocks.dropArena hok har hnodup fun x => by
    rw [hl]
    exact and_congr_right fun _ => forall_congr' fun i => by rw [List.mem_range]
  rw [hrun]
  refine ⟨_, if_pos hmem, ⟨?_, ?_, fun a' d' n har' => ?_⟩, fun x hx => ?_⟩
  · rw [harena, hpages]
    exact hok'
  · rw [harena, hfree]
    exact hblocks'
  · dsimp only at har'
    rw [harena] at har'
    rcases eq_or_ne a' a with rfl | hne
    · rw [update_self] at har'
      nomatch har'
    · rw [update_of_ne hne] at har'
      exact hused a' d' n har' hne
  · obtain ⟨size, hx'⟩ := hblocks.isBlock hx
    have hne := (hblocks'.ne_of_none (update_self ..)).1 x hx
    have hx'' : IsBlock (update h1.arena a none) (pgRoundDown x) x size :=
      hx'.congr (by rw [harena, update_of_ne hne])
    refine Keeps.of_block hok (by dsimp only; rw [harena, hpages]; exact hok') hx' hx''
      fun y hy => (if_neg fun hpage => ?_).trans (hbytes y fun b hb hlink => ?_)
    · exact hx'.apart_arena hok har hne y hy hpage
    · exact hblocks.live_apart_free hok hx hx' hb y hy (has_block_of_link hlink)

theorem HeapInv.store {b size : Nat} {r : Range} (hinv : HeapInv h live) (hb : b ∈ live)
    (hsize : h.blockSize b = some size) (hr : ∀ x, r.Has x → Range.Has ⟨b, size⟩ x)
    (value : Nat → UInt8) :
    ∃ h', h.store r value = some h' ∧ HeapInv h' live ∧ h'.arena = h.arena ∧
      h'.freeList = h.freeList ∧ (∀ x, h'.bytes x = if r.Has x then value x else h.bytes x) ∧
      ∀ x ∈ live, x ≠ b → Keeps h h' x := by
  obtain ⟨size', hblock⟩ := hinv.blocks.isBlock hb
  obtain ⟨-, -, -, hsize'⟩ := hblock.blockToArena_eq hinv.arenas
  obtain rfl := Option.mem_unique hsize hsize'
  refine ⟨_, if_pos (hinv.clean hb hblock hr), ⟨hinv.arenas, hinv.blocks, hinv.used⟩,
    rfl, rfl, fun _ => rfl, fun x hx hne => ?_⟩
  obtain ⟨n, hx'⟩ := hinv.blocks.isBlock hx
  refine Keeps.of_block hinv.arenas hinv.arenas hx' hx' fun y hy => if_neg fun hmem => ?_
  exact hx'.apart hinv.arenas hblock hne y hy (hr y hmem)

/-- **`free`** of a live block. -/
theorem free_spec {p : Nat} (hinv : HeapInv h live) (hp : p ∈ live) (env : HeapEnv) :
    ∃ h', free env p h = some h' ∧ HeapInv h' (live.erase p) ∧
      ∀ x ∈ live, x ≠ p → Keeps h h' x := by
  obtain ⟨size, hblock⟩ := hinv.blocks.isBlock hp
  obtain ⟨ar, har, hfind, hsize⟩ := hblock.blockToArena_eq hinv.arenas
  generalize pgRoundDown p = a at hblock har hfind
  have hne : p ≠ 0 := hinv.ne_zero hp
  rw [free, if_neg hne, hfind, Option.bind_some]
  cases hblock with
  | big freeCnt har' hb hn =>
    obtain rfl := Option.mem_unique har har'
    have hok' := hinv.arenas.drop har
    have hblocks' := hinv.blocks.dropBig hinv.arenas har
    refine ⟨_, if_pos (hinv.arenas.page a _ har), ⟨hok', hb ▸ hblocks', fun a' d' n har' => ?_⟩,
      fun x hx hxp => ?_⟩
    · rcases eq_or_ne a' a with rfl | hne'
      · exact absurd ((update_self ..).symm.trans har') (by simp)
      · exact hinv.used a' d' n ((update_of_ne hne' _ _).symm.trans har')
    · obtain ⟨n, hx'⟩ := hinv.blocks.isBlock hx
      have hxp' : x ∈ live.erase (a + arenaSize) := (List.mem_erase_of_ne (hb ▸ hxp)).mpr hx
      have hne' := (hblocks'.ne_of_none (update_self ..)).1 x hxp'
      refine Keeps.of_block hinv.arenas hok' hx' (hx'.congr (update_of_ne hne' _ _))
        fun y hy => if_neg fun hpage => ?_
      exact hx'.apart_arena hinv.arenas har hne' y hy hpage
  | small d n i har' hi hb hn =>
    obtain rfl := Option.mem_unique har har'
    dsimp only
    obtain ⟨h1, hstore, hinv1, harena1, hfree1, -, hkeep1⟩ := hinv.store hp hsize
      (fun _ hx => hx) fun _ => 0xcc
    rw [hn] at hstore
    rw [hstore, Option.bind_some]
    have har1 : h1.arena a = some ⟨some d, n⟩ := harena1 ▸ har
    have hused := hinv.used a d n har
    have hcnt : (n + 1) % 2 ^ 32 = n + 1 :=
      Nat.mod_eq_of_lt (Nat.lt_of_le_of_lt hused (blocksPerArena_lt d))
    rw [hcnt]
    obtain ⟨h2, hh2⟩ : ∃ h2, h2 = (h1.setFree d (p :: h1.freeList d) env.junk).setArena a
      ⟨some d, n + 1⟩ env.junk := ⟨_, rfl⟩
    have hok2 : ArenasOk h2.arena h2.pages := hh2 ▸ hinv1.arenas.set har1 ⟨some d, n + 1⟩ rfl
    have hblocks2 : BlocksOk h2.arena h2.freeList (live.erase p) := by
      rw [hh2, hb]
      exact hinv1.blocks.give hinv1.arenas har1 hi (hb ▸ hp)
    have har2 : h2.arena a = some ⟨some d, n + 1⟩ := hh2 ▸ update_self ..
    have hused2 : ∀ a' d' n', h2.arena a' = some ⟨some d', n'⟩ → a' ≠ a →
        n' < (desc d').blocksPerArena := by
      intro a' d' n' har' hne'
      refine hinv1.used a' d' n' ?_
      rw [hh2] at har'
      exact (update_of_ne hne' _ _).symm.trans har'
    have hkeep2 : ∀ x ∈ live.erase p, Keeps h h2 x := by
      intro x hx
      obtain ⟨hxp, hx1⟩ := hinv.blocks.liveNodup.mem_erase_iff.mp hx
      obtain ⟨m, hx'⟩ := hinv1.blocks.isBlock hx1
      have hx2 : IsBlock h2.arena (pgRoundDown x) x m := hh2 ▸ hx'.set har1
      refine (hkeep1 x hx1 hxp).trans (Keeps.of_block hinv1.arenas hok2 hx' hx2 fun y hy => ?_)
      have hheader := hx2.apart_header hok2 har2 y hy
      have hlink : ¬ ∃ b ∈ p :: h1.freeList d, Range.Has ⟨b, linkSize⟩ y := by
        rintro ⟨b, hb', hlink⟩
        have hmem : b ∈ h2.freeList d := by
          rw [hh2]
          exact (h1.freeList_setFree d (p :: h1.freeList d) env.junk).symm ▸ hb'
        exact hblocks2.live_apart_free hok2 hx hx2 hmem y hy (has_block_of_link hlink)
      rw [hh2]
      exact (if_neg hheader).trans (if_neg hlink)
    have herase : ∀ x ∈ live, x ≠ p → x ∈ live.erase p := fun x hx hxp =>
      (List.mem_erase_of_ne hxp).mpr hx
    rw [← hh2]
    have hle : n + 1 ≤ (desc d).blocksPerArena := hused
    rcases Nat.lt_or_eq_of_le hle with hlt | heq
    · rw [if_neg (Nat.not_le.mpr hlt)]
      refine ⟨h2, rfl, ⟨hok2, hblocks2, fun a' d' n' har3 => ?_⟩,
        fun x hx hxp => hkeep2 x (herase x hx hxp)⟩
      rcases eq_or_ne a' a with rfl | hne'
      · obtain ⟨rfl, rfl⟩ := header_inj har2 har3
        exact hlt
      · exact hused2 a' d' n' har3 hne'
    · rw [if_pos (Nat.le_of_eq heq.symm), if_pos heq]
      obtain ⟨h', hrun, hinv', hkeep'⟩ := dropArena_spec env hok2 hblocks2 (heq ▸ har2) hused2
      exact ⟨h', hrun, hinv', fun x hx hxp =>
        (hkeep2 x (herase x hx hxp)).trans (hkeep' x (herase x hx hxp))⟩

end Free

/-! ## `calloc` and `realloc` -/

section Calls

variable {env : HeapEnv} {h : Heap} {live : List Nat}

/-- **`calloc`** is `malloc`, of bytes that are zero. -/
theorem calloc_spec {a b : Nat} (hinv : HeapInv h live) (henv : EnvOk h env)
    (hsize : a * b ≤ 2 ^ 32 - 4108) : ∃ p h', calloc env a b h = some (p, h') ∧
      (p = 0 ∧ h' = h ∨ Handed h live (a * b) p h' ∧ ∀ i < a * b, h'.bytes (p + i) = 0) := by
  have hmod : a * b % 2 ^ 32 = a * b := Nat.mod_eq_of_lt (by omega)
  rw [calloc, hmod]
  split
  next => exact ⟨0, h, rfl, .inl ⟨rfl, rfl⟩⟩
  next =>
    obtain ⟨p, h1, hrun, ⟨rfl, rfl⟩ | hhanded⟩ := malloc_spec hinv henv hsize
    · exact ⟨0, h1, by rw [hrun]; rfl, .inl ⟨rfl, rfl⟩⟩
    · obtain ⟨n, hn, hle⟩ := hhanded.large
      obtain ⟨h', hstore, hinv', hsize', -, hbytes, hkeep⟩ := hhanded.inv.store
        (r := ⟨p, a * b⟩) mem_cons_self hn
        (fun x hx => ⟨hx.1, hx.2.trans_le (Nat.add_le_add_left hle _)⟩) fun _ => 0
      refine ⟨p, h', ?_, .inr ⟨⟨hhanded.ne_zero, hhanded.pos, hinv', hhanded.new, ⟨n, ?_, hle⟩,
        fun x hx => ?_⟩, fun i hi => ?_⟩⟩
      · rw [hrun, Option.bind_some, if_pos hhanded.ne_zero, hstore]
        rfl
      · rw [blockSize_congr hsize']
        exact hn
      · refine (hhanded.keeps x hx).trans (hkeep x (mem_cons_of_mem _ hx) ?_)
        rintro rfl
        exact hhanded.new hx
      · rw [hbytes]
        exact if_pos ⟨Nat.le_add_right _ _, Nat.add_lt_add_left hi _⟩

/-- **`realloc`** of a live block returns a null pointer and leaves everything as it is, or hands
out a block with the bytes of the old one, which is freed. -/
theorem realloc_spec {old size : Nat} (hinv : HeapInv h live) (henv : EnvOk h env)
    (hold : old ∈ live) (hsize : size ≤ 2 ^ 31) (hpos : 0 < size) :
    ∃ p h', realloc env old size h = some (p, h') ∧
      (p = 0 ∧ h' = h ∨ p ≠ 0 ∧ p ∉ live ∧ HeapInv h' (p :: live.erase old) ∧
        (∃ n, h'.blockSize p = some n ∧ size ≤ n) ∧ (∀ x ∈ live, x ≠ old → Keeps h h' x) ∧
        ∃ n, h.blockSize old = some n ∧
          ∀ i < min size n, h'.bytes (p + i) = h.bytes (old + i)) := by
  have hne : old ≠ 0 := hinv.ne_zero hold
  rw [realloc, if_neg hpos.ne']
  obtain ⟨p, h1, hrun, ⟨rfl, rfl⟩ | hhanded⟩ := malloc_spec hinv henv (hsize.trans (by decide))
  · refine ⟨0, h1, ?_, .inl ⟨rfl, rfl⟩⟩
    rw [hrun, Option.bind_some, if_neg fun hc => hc.2 rfl]
  · obtain ⟨n, hn, hle⟩ := hhanded.large
    obtain ⟨oldSize, hblock⟩ := hinv.blocks.isBlock hold
    obtain ⟨-, -, -, holdSize⟩ := hblock.blockToArena_eq hinv.arenas
    obtain ⟨holdSize1, hbytes1⟩ := hhanded.keeps old hold oldSize holdSize
    have hpold : p ≠ old := by
      rintro rfl
      exact hhanded.new hold
    have hmin : (if size < oldSize then size else oldSize) = min size oldSize := by
      rw [Nat.min_def]
      split <;> split <;> omega
    obtain ⟨h2, hstore, hinv2, harena2, -, hbytes2, hkeep2⟩ := hhanded.inv.store
      (r := ⟨p, min size oldSize⟩) mem_cons_self hn
      (fun x hx => ⟨hx.1, hx.2.trans_le (by dsimp only; omega)⟩)
      fun x => h1.bytes (old + (x - p))
    obtain ⟨h', hfree, hinv', hkeep'⟩ := free_spec hinv2 (mem_cons_of_mem p hold) env
    have hn2 : h2.blockSize p = some n := (blockSize_congr harena2 p).trans hn
    obtain ⟨hn', hbytes'⟩ := hkeep' p mem_cons_self hpold n hn2
    refine ⟨p, h', ?_, .inr ⟨hhanded.ne_zero, hhanded.new, ?_, ⟨n, hn', hle⟩, fun x hx hxold => ?_,
      oldSize, holdSize, fun i hi => ?_⟩⟩
    · rw [hrun, Option.bind_some, if_pos ⟨hne, hhanded.ne_zero⟩, holdSize1, Option.bind_some, hmin]
      dsimp only
      rw [hstore, Option.bind_some, hfree]
      rfl
    · rw [List.erase_cons_tail (by simpa using hpold)] at hinv'
      exact hinv'
    · have hxp : x ≠ p := by
        rintro rfl
        exact hhanded.new hx
      have hx' := mem_cons_of_mem p hx
      exact ((hhanded.keeps x hx).trans (hkeep2 x hx' hxp)).trans (hkeep' x hx' hxold)
    · have hin : Range.Has ⟨p, min size oldSize⟩ (p + i) :=
        ⟨Nat.le_add_right _ _, Nat.add_lt_add_left hi _⟩
      rw [hbytes' i (by omega), hbytes2, if_pos hin, Nat.add_sub_cancel_left, hbytes1 i (by omega)]

end Calls

/-! ## Runs -/

theorem map_erase_of_nodup {α β : Type} [DecidableEq α] [DecidableEq β] {f : α → β} {x : α} :
    ∀ {l : List α}, (l.map f).Nodup → x ∈ l → (l.erase x).map f = (l.map f).erase (f x)
  | y :: l, hnodup, hx => by
    rw [map_cons, List.nodup_cons] at hnodup
    rcases eq_or_ne y x with rfl | hne
    · rw [List.erase_cons_head, map_cons, List.erase_cons_head]
    · have hx : x ∈ l := (List.mem_cons.mp hx).resolve_left hne.symm
      have hne' : f y ≠ f x := fun heq => hnodup.1 (heq ▸ mem_map_of_mem hx)
      rw [List.erase_cons_tail (by simpa using hne), map_cons, map_cons,
        List.erase_cons_tail (by simpa using hne'), map_erase_of_nodup hnodup.2 hx]

/-- The blocks of a state that were not freed. -/
structure LiveInv (st : HeapState) : Prop where
  inv : HeapInv st.heap (st.live.map Range.start)
  /-- None was asked for with 0 bytes. -/
  pos : ∀ x ∈ st.live, 0 < x.cnt
  /-- They are as large as they were asked for. -/
  large : ∀ x ∈ st.live, ∃ n, st.heap.blockSize x.start = some n ∧ x.cnt ≤ n

/-- What a call does to the blocks that stay. -/
def KeepsLive (st : HeapState) (call : HeapCall) (st' : HeapState) : Prop :=
  ∀ x ∈ st.live, x ∈ st'.live → (∀ ofs value, call ≠ .write x ofs value) →
    Keeps st.heap st'.heap x.start

namespace LiveInv

variable {st : HeapState} {env : HeapEnv}

theorem of_start (h : HeapStart st) : LiveInv st := by
  obtain ⟨hlive, hpages, harena, hfree⟩ := h
  refine ⟨⟨?_, ?_, fun a d n har => ?_⟩, ?_, ?_⟩
  · rw [hpages]
    refine ⟨.nil, nofun, nofun, nofun, nofun, fun a ar har => ?_⟩
    rw [harena] at har
    nomatch har
  · rw [hlive]
    refine ⟨.nil, fun d => (hfree d).symm ▸ .nil, fun a => ⟨nofun, fun d b hb => ?_, ?_, ?_, ?_⟩⟩
    · rw [hfree] at hb
      nomatch hb
    all_goals
      intros
      simp_all
  · rw [harena] at har
    nomatch har
  all_goals
    rw [hlive]
    nofun

variable {x : Range}

theorem start_inj (h : LiveInv st) {y : Range} (hx : x ∈ st.live) (hy : y ∈ st.live)
    (heq : x.start = y.start) : x = y :=
  List.inj_on_of_nodup_map h.inv.blocks.liveNodup hx hy heq

variable {size p : Nat} {h' : Heap}

section

variable (h : LiveInv st)
include h

theorem handed (hp : Handed st.heap (st.live.map Range.start) size p h') :
    LiveInv ⟨h', ⟨p, size⟩ :: st.live⟩ where
  inv := hp.inv
  pos := List.forall_mem_cons.mpr ⟨hp.pos, h.pos⟩
  large := by
    refine List.forall_mem_cons.mpr ⟨hp.large, fun x hx => ?_⟩
    obtain ⟨n, hn, hle⟩ := h.large x hx
    exact ⟨n, (hp.keeps _ (mem_map_of_mem hx) n hn).1, hle⟩

theorem freed (hx : x ∈ st.live) (hinv : HeapInv h' ((st.live.map Range.start).erase x.start))
    (hkeep : ∀ y ∈ st.live.map Range.start, y ≠ x.start → Keeps st.heap h' y) :
    LiveInv ⟨h', st.live.erase x⟩ where
  inv := by
    rw [map_erase_of_nodup h.inv.blocks.liveNodup hx]
    exact hinv
  pos y hy := h.pos y (mem_of_mem_erase hy)
  large y hy := by
    have hnodup : st.live.Nodup := h.inv.blocks.liveNodup.of_map
    obtain ⟨hne, hy⟩ := hnodup.mem_erase_iff.mp hy
    obtain ⟨n, hn, hle⟩ := h.large y hy
    exact ⟨n, (hkeep _ (mem_map_of_mem hy) (fun heq => hne (h.start_inj hy hx heq)) n hn).1, hle⟩

theorem addLive (hp : p = 0 ∧ h' = st.heap ∨ Handed st.heap (st.live.map Range.start) size p h') :
    LiveInv ⟨h', addLive p size st.live⟩ ∧ ∀ x ∈ st.live, Keeps st.heap h' x.start := by
  rcases hp with ⟨rfl, rfl⟩ | hp
  · exact ⟨h, fun _ _ _ hn => ⟨hn, fun _ _ => rfl⟩⟩
  · rw [Pintos.addLive, if_neg hp.ne_zero]
    exact ⟨h.handed hp, fun x hx => hp.keeps _ (mem_map_of_mem hx)⟩

theorem free_call (env : HeapEnv) {p : Option Range}
    (hp : ∀ x ∈ p, x ∈ st.live) : ∃ h', free env (addressOf p) st.heap = some h' ∧
      LiveInv ⟨h', dropLive p st.live⟩ ∧
      ∀ x ∈ st.live, x ∈ dropLive p st.live → Keeps st.heap h' x.start := by
  cases p with
  | none => exact ⟨st.heap, if_pos rfl, h, fun _ _ _ _ hn => ⟨hn, fun _ _ => rfl⟩⟩
  | some x =>
    have hx := hp x rfl
    obtain ⟨h', hrun, hinv, hkeep⟩ := free_spec h.inv (mem_map_of_mem hx) env
    refine ⟨h', hrun, h.freed hx hinv hkeep, fun y hy hy' => ?_⟩
    have hnodup : st.live.Nodup := h.inv.blocks.liveNodup.of_map
    have hne := (hnodup.mem_erase_iff.mp hy').1
    exact hkeep _ (mem_map_of_mem hy) fun heq => hne (h.start_inj hy hx heq)

theorem realloc_call (henv : EnvOk st.heap env) (hx : x ∈ st.live)
    (hsize : size ≤ 2 ^ 31) (hpos : 0 < size) :
    ∃ p st', heapMachine.step st (.realloc (some x) size, env) = some (p, st') ∧ LiveInv st' ∧
      KeepsLive st (.realloc (some x) size) st' ∧
      (p = 0 ∧ st' = st ∨ p ≠ 0 ∧ ∃ n, st.heap.blockSize x.start = some n ∧
        ∀ i < min size n, st'.heap.bytes (p + i) = st.heap.bytes (x.start + i)) := by
  obtain ⟨p, h', hrun, hcase⟩ := realloc_spec h.inv henv (mem_map_of_mem hx) hsize hpos
  have hstep : heapMachine.step st (.realloc (some x) size, env) = some (p, ⟨h', Pintos.addLive p
      size (if p = 0 ∧ size ≠ 0 then st.live else st.live.erase x)⟩) := by
    show (realloc env x.start size st.heap).map _ = _
    rw [hrun]
    rfl
  refine ⟨p, _, hstep, ?_⟩
  rcases hcase with ⟨rfl, rfl⟩ | ⟨hne, hnew, hinv, hlarge, hkeep, n, hn, hbytes⟩
  · rw [if_pos ⟨rfl, Nat.ne_of_gt hpos⟩]
    exact ⟨h, fun _ _ _ _ _ hn => ⟨hn, fun _ _ => rfl⟩, .inl ⟨rfl, rfl⟩⟩
  rw [if_neg fun hc => hne hc.1, Pintos.addLive, if_neg hne]
  have hnodup : st.live.Nodup := h.inv.blocks.liveNodup.of_map
  have hother : ∀ y ∈ st.live.erase x, Keeps st.heap h' y.start := by
    intro y hy
    obtain ⟨hyx, hy⟩ := hnodup.mem_erase_iff.mp hy
    exact hkeep _ (mem_map_of_mem hy) fun heq => hyx (h.start_inj hy hx heq)
  refine ⟨⟨?_, ?_, ?_⟩, fun y hy hy' _ => ?_, .inr ⟨hne, n, hn, hbytes⟩⟩
  · rw [map_cons, map_erase_of_nodup h.inv.blocks.liveNodup hx]
    exact hinv
  · exact List.forall_mem_cons.mpr ⟨hpos, fun y hy => h.pos y (mem_of_mem_erase hy)⟩
  · refine List.forall_mem_cons.mpr ⟨hlarge, fun y hy => ?_⟩
    obtain ⟨m, hm, hle⟩ := h.large y (mem_of_mem_erase hy)
    exact ⟨m, (hother y hy m hm).1, hle⟩
  · rcases List.mem_cons.mp hy' with rfl | hy'
    · exact absurd (mem_map_of_mem hy) hnew
    · exact hother y hy'

/-- **Every call has a result and keeps the invariant**, and the blocks that stay. -/
theorem step {call : HeapCall × HeapEnv} (hguard : HeapGuard st call) :
    ∃ r st', heapMachine.step st call = some (r, st') ∧ LiveInv st' ∧
      KeepsLive st call.1 st' := by
  obtain ⟨call, env⟩ := call
  obtain ⟨hcall, henv⟩ := hguard
  cases call with
  | malloc size =>
    obtain ⟨p, h', hrun, hcase⟩ := malloc_spec h.inv henv (hcall.trans (by decide))
    obtain ⟨hinv, hkeep⟩ := h.addLive hcase
    refine ⟨p, _, ?_, hinv, fun x hx _ _ => hkeep x hx⟩
    show (malloc env size st.heap).map _ = _
    rw [hrun]
    rfl
  | calloc a b =>
    obtain ⟨p, h', hrun, hcase⟩ := calloc_spec h.inv henv (hcall.trans (by decide))
    obtain ⟨hinv, hkeep⟩ := h.addLive (hcase.imp_right And.left)
    refine ⟨p, _, ?_, hinv, fun x hx _ _ => hkeep x hx⟩
    show (calloc env a b st.heap).map _ = _
    rw [hrun]
    rfl
  | realloc oldBlock size =>
    obtain ⟨hold, hsize⟩ := hcall
    rcases Nat.eq_zero_or_pos size with rfl | hpos
    · obtain ⟨h', hrun, hinv, hkeep⟩ := h.free_call env hold
      refine ⟨0, ⟨h', dropLive oldBlock st.live⟩, ?_, hinv, fun x hx hx' _ => hkeep x hx hx'⟩
      show (realloc env (addressOf oldBlock) 0 st.heap).map _ = _
      rw [realloc, if_pos rfl, hrun]
      rfl
    cases oldBlock with
    | some x =>
      obtain ⟨p, st', hstep, hinv, hkeep, -⟩ := h.realloc_call henv (hold x rfl) hsize hpos
      exact ⟨p, st', hstep, hinv, hkeep⟩
    | none =>
      obtain ⟨p, h', hrun, hcase⟩ := malloc_spec h.inv henv (hsize.trans (by decide))
      obtain ⟨hinv, hkeep⟩ := h.addLive hcase
      refine ⟨p, _, ?_, hinv, fun x hx _ _ => hkeep x hx⟩
      show (realloc env 0 size st.heap).map _ = _
      rw [realloc, if_neg hpos.ne', hrun, Option.bind_some, if_neg fun hc => hc.1 rfl,
        Option.map_some]
      simp only [dropLive, Option.elim_none, ite_self]
  | free p =>
    obtain ⟨h', hrun, hinv, hkeep⟩ := h.free_call env hcall
    refine ⟨0, _, ?_, hinv, fun x hx hx' _ => hkeep x hx hx'⟩
    show (free env (addressOf p) st.heap).map _ = _
    rw [hrun]
    rfl
  | write p ofs value =>
    obtain ⟨hp, hofs⟩ := hcall
    obtain ⟨n, hn, hle⟩ := h.large p hp
    have hsub : ∀ y, Range.Has ⟨p.start + ofs, 1⟩ y → Range.Has ⟨p.start, n⟩ y := by
      rintro y ⟨hlow, hhigh⟩
      dsimp only at hlow hhigh
      exact ⟨by dsimp only; omega, by dsimp only; omega⟩
    obtain ⟨h', hrun, hinv, harena, -, -, hkeep⟩ := h.inv.store (mem_map_of_mem hp) hn hsub
      fun _ => value
    refine ⟨0, ⟨h', st.live⟩, ?_, ⟨hinv, h.pos, fun x hx => ?_⟩, fun x hx _ hne => ?_⟩
    · show (st.heap.store _ _).map _ = _
      rw [hrun]
      rfl
    · obtain ⟨m, hm, hle⟩ := h.large x hx
      exact ⟨m, (blockSize_congr harena _).trans hm, hle⟩
    · refine hkeep _ (mem_map_of_mem hx) fun heq => ?_
      obtain rfl := h.start_inj hx hp heq
      exact hne ofs value rfl

end

end LiveInv

/-! ## The result -/

/-- The bytes of a block. -/
def Heap.extent (h : Heap) (b : Nat) : Range := ⟨b, (h.blockSize b).getD 0⟩

/-- What the heap promises. -/
structure HeapOk (st : HeapState) : Prop where
  /-- Live blocks are as large as they were asked for. -/
  large : ∀ x ∈ st.live, 0 < x.cnt ∧ x.cnt ≤ (st.heap.extent x.start).cnt
  apart : st.live.Pairwise fun x y => (st.heap.extent x.start).Apart (st.heap.extent y.start)
  /-- None of their bytes is one of a header. -/
  apart_header : ∀ x ∈ st.live, ∀ a ar, st.heap.arena a = some ar →
    (st.heap.extent x.start).Apart ⟨a, arenaSize⟩
  apart_free : ∀ x ∈ st.live, ∀ d, ∀ b ∈ st.heap.freeList d,
    (st.heap.extent x.start).Apart ⟨b, (desc d).blockSize⟩
  /-- No block is on a free list twice. -/
  once : ∀ d, (st.heap.freeList d).Nodup
  /-- `free_cnt` is the number of an arena's free blocks, and there are others. -/
  count : ∀ a d freeCnt, st.heap.arena a = some ⟨some d, freeCnt⟩ →
    freeCnt = (freeIdxs st.heap.freeList d a).card ∧ freeCnt < (desc d).blocksPerArena
  /-- The heap has exactly the pages in which a block is live: it gives one back with the last. -/
  returned : ∀ a, (∃ r ∈ st.heap.pages, r.start = a) ↔ ∃ x ∈ st.live, pgRoundDown x.start = a
  /-- No block on a free list is in a page that the heap has not. -/
  free_held : ∀ d, ∀ b ∈ st.heap.freeList d, ∃ r ∈ st.heap.pages, r.start = pgRoundDown b
  /-- No assertion fails in a call, and the blocks that stay are as they were. -/
  calls : ∀ call, HeapGuard st call → ∃ r st', heapMachine.step st call = some (r, st') ∧
    KeepsLive st call.1 st'
  /-- `realloc` preserves the bytes that the old and the new block have. -/
  reallocs : ∀ x size env p st', HeapGuard st (.realloc (some x) size, env) → 0 < size →
    heapMachine.step st (.realloc (some x) size, env) = some (p, st') →
      p = 0 ∧ st' = st ∨ p ≠ 0 ∧ ∀ i < min size (st.heap.extent x.start).cnt,
        st'.heap.bytes (p + i) = st.heap.bytes (x.start + i)

theorem LiveInv.ok {st : HeapState} (h : LiveInv st) : HeapOk st := by
  have hok := h.inv.arenas
  have hblocks := h.inv.blocks
  have hextent : ∀ x ∈ st.live, IsBlock st.heap.arena (pgRoundDown x.start) x.start
      (st.heap.extent x.start).cnt := by
    intro x hx
    obtain ⟨size, hblock⟩ := hblocks.isBlock (mem_map_of_mem hx)
    obtain ⟨-, -, -, hsize⟩ := hblock.blockToArena_eq hok
    rw [Heap.extent, hsize]
    exact hblock
  have hpage : ∀ {a ar}, st.heap.arena a = some ar → ∃ r ∈ st.heap.pages, r.start = a :=
    fun har => ⟨_, hok.page _ _ har, rfl⟩
  refine ⟨fun x hx => ?_, ?_, fun x hx a ar har => (hextent x hx).apart_header hok har,
    fun x hx d b hb => hblocks.live_apart_free hok (mem_map_of_mem hx) (hextent x hx) hb,
    hblocks.freeNodup, fun a d freeCnt har => ⟨(hblocks.blocksAt a).count d freeCnt har,
      h.inv.used a d freeCnt har⟩, fun a => ⟨?_, ?_⟩, fun d b hb => ?_, fun call hguard => ?_,
    fun x size env p st' hguard hpos hstep => ?_⟩
  · obtain ⟨n, hn, hle⟩ := h.large x hx
    exact ⟨h.pos x hx, by rw [Heap.extent, hn]; exact hle⟩
  · refine List.Pairwise.imp_of_mem (fun hx hy hne => ?_) hblocks.liveNodup.of_map
    exact (hextent _ hx).apart hok (hextent _ hy) fun heq => hne (h.start_inj hx hy heq)
  · rintro ⟨r, hr, rfl⟩
    obtain ⟨⟨desc', n⟩, har, -⟩ := hok.header r hr
    cases desc' with
    | none =>
      obtain ⟨x, hx, heq⟩ := List.mem_map.mp ((hblocks.blocksAt _).big n har)
      exact ⟨x, hx, by rw [heq, pgRoundDown_big (hok.aligned_of_arena har)]⟩
    | some d =>
      obtain ⟨i, hi, hmem⟩ := (hblocks.freeCnt_lt_iff har).mp (h.inv.used _ d n har)
      obtain ⟨x, hx, heq⟩ := List.mem_map.mp hmem
      exact ⟨x, hx, by rw [heq, pgRoundDown_blockAt (hok.aligned_of_arena har) hi]⟩
  · rintro ⟨x, hx, rfl⟩
    obtain ⟨ar, har, -⟩ := (hextent x hx).inside hok
    exact hpage har
  · obtain ⟨freeCnt, i, har, -⟩ := (hblocks.blocksAt _).ofFree d b hb rfl
    exact hpage har
  · obtain ⟨r, st', hstep, -, hkeep⟩ := h.step hguard
    exact ⟨r, st', hstep, hkeep⟩
  · obtain ⟨⟨hold, hsize⟩, henv⟩ := hguard
    obtain ⟨p', st'', hstep', -, -, hcase⟩ := h.realloc_call henv (hold x rfl) hsize hpos
    rw [hstep] at hstep'
    cases hstep'
    refine hcase.imp_right fun ⟨hne, n, hn, hbytes⟩ => ⟨hne, ?_⟩
    rw [Heap.extent, hn]
    exact hbytes

/-- **The heap keeps live blocks apart.**  In every state that calls lead to, from a heap without
arenas, and with a page allocator that hands out pages once, the heap keeps its promises. -/
theorem heap_ok {st : HeapState} (h : heapMachine.Reach HeapStart HeapGuard st) : HeapOk st := by
  refine LiveInv.ok (h.invariant (fun _ => .of_start) ?_)
  intro s s' call r hinv hguard hstep
  obtain ⟨r', s'', hstep', hinv', -⟩ := hinv.step hguard
  rw [hstep] at hstep'
  cases hstep'
  exact hinv'

/-- The heap after `malloc_init`. -/
def emptyHeap : HeapState := ⟨⟨fun _ => none, fun _ => [], [], fun _ => 0⟩, []⟩

/-- A page allocator with one page left. -/
def onePage : HeapEnv := ⟨fun pageCnt => if pageCnt = 1 then 0xc0400000 else 0, fun _ => 0⟩

/-- A page allocator with no page left. -/
def noPages : HeapEnv := ⟨fun _ => 0, fun _ => 0⟩

/-- Two blocks of one arena are handed out and the first is freed, the second moves there and grows,
and the place that it has left is handed out again. -/
theorem heap_ok_reused : ∃ st, heapMachine.Reach HeapStart HeapGuard st ∧
    st.live = [⟨0xc040008c, 100⟩, ⟨0xc040000c, 128⟩] ∧ HeapOk st := by
  have hcalls : heapMachine.Along (fun st call => CallOk st call.1) emptyHeap
      [(.malloc 100, onePage), (.malloc 120, noPages), (.free (some ⟨0xc040000c, 100⟩), noPages),
        (.realloc (some ⟨0xc040008c, 120⟩) 128, noPages), (.calloc 10 10, noPages)] := by
    decide +kernel
  have henv : EnvOk emptyHeap.heap onePage := by
    intro pageCnt hpos
    by_cases hcnt : pageCnt = 1
    · subst hcnt
      exact .inr ⟨by decide, by decide, by decide, nofun⟩
    · exact .inl (if_neg hcnt)
  have henvs : heapMachine.Along (fun st call => EnvOk st.heap call.2) emptyHeap
      [(.malloc 100, onePage), (.malloc 120, noPages), (.free (some ⟨0xc040000c, 100⟩), noPages),
        (.realloc (some ⟨0xc040008c, 120⟩) 128, noPages), (.calloc 10 10, noPages)] := by
    have hnone : ∀ st : HeapState, EnvOk st.heap noPages := fun _ _ _ => .inl rfl
    exact ⟨henv, fun _ st _ => .of_forall (by simp [hnone]) st⟩
  obtain ⟨st, hreach, hlive⟩ := heapMachine.exists_reach_along (I := HeapStart) (G := HeapGuard)
    ⟨rfl, rfl, fun _ => rfl, fun _ => rfl⟩ _
    (fun st => st.live = [⟨0xc040008c, 100⟩, ⟨0xc040000c, 128⟩]) (hcalls.and henvs)
    (by decide +kernel)
  exact ⟨st, hreach, hlive, heap_ok hreach⟩

/-- The answers of the page allocator to the requests of the heap. -/
def PallocState.env (st : PallocState) (junk : Nat → UInt8) : HeapEnv where
  palloc pageCnt := ((pallocMachine.step st (.get ⟨false, false⟩ pageCnt)).map Prod.fst).getD 0
  junk := junk

/-- **The page allocator is one that the heap can rely on**, in every state that calls lead to, if
the pages of the heap are among those that it has handed out. -/
theorem palloc_serves_heap {M : Memory} {userPageLimit : Nat} {st : PallocState}
    (hreach : pallocMachine.Reach (PallocStart M userPageLimit) (fun _ _ => True) st) {h : Heap}
    (hheld : ∀ r ∈ h.pages, ∃ x ∈ st.live, r = ⟨x.pages, x.pageCnt * pgSize⟩)
    (junk : Nat → UInt8) : EnvOk h (st.env junk) := by
  intro pageCnt hpos
  dsimp only [PallocState.env]
  rcases hstep : pallocMachine.step st (.get ⟨false, false⟩ pageCnt) with _ | ⟨pages, st'⟩
  · exact .inl rfl
  refine or_iff_not_imp_left.mpr fun hne => ⟨hne, ?_⟩
  simp only [Option.map_some, Option.getD_some] at hne ⊢
  have hok := PallocInv.ok ((hreach.step trivial hstep).invariant (fun _ hst => .of_start hst)
    fun _ _ _ _ hinv _ hstep => hinv.step hstep)
  have hlive : st'.live = ⟨pages, pageCnt, false⟩ :: st.live := by
    obtain ⟨r, -, heq⟩ := Option.map_eq_some_iff.mp hstep
    cases heq
    exact if_neg hne
  have hnew : ⟨pages, pageCnt, false⟩ ∈ st'.live := hlive ▸ .head _
  have haligned := (hok.inside _ hnew).1
  refine ⟨haligned, (hok.bounded _ hnew).le, fun r hr => ?_⟩
  obtain ⟨x, hx, rfl⟩ := hheld r hr
  have hx' := (hok.inside x (hlive ▸ .tail _ hx)).1
  have hapart := hok.apart
  rw [hlive, List.pairwise_cons] at hapart
  -- two ranges of whole pages that share a byte share a page
  refine fun i hi hi' => hapart.1 x hx (pgNo i) ?_ ?_ <;>
    simp only [Allocation.range, Range.Has, pgNo, pgOfs, pgSize] at * <;> omega

/-- A `malloc` of 100 bytes takes the page that the allocator hands out first. -/
theorem palloc_serves_heap_malloc : ∃ a h pages st, pallocInit smallMemory 1000 = some a ∧
    malloc (PallocState.env ⟨a, []⟩ fun _ => 0) 100 emptyHeap.heap = some (pages + arenaSize, h) ∧
    pallocMachine.step ⟨a, []⟩ (.get ⟨false, false⟩ 1) = some (pages, st) ∧
    h.pages = [⟨pages, pgSize⟩] ∧ EnvOk h (st.env fun _ => 0) := by
  have hrun : (pallocInit smallMemory 1000).any (fun a =>
      (malloc (PallocState.env ⟨a, []⟩ fun _ => 0) 100 emptyHeap.heap).any fun r =>
        (pallocMachine.step ⟨a, []⟩ (.get ⟨false, false⟩ 1)).any fun q =>
          decide (r.1 = q.1 + arenaSize ∧ r.2.pages = [⟨q.1, pgSize⟩] ∧
            q.2.live = [⟨q.1, 1, false⟩])) = true := by
    decide +kernel
  obtain ⟨a, hinit, hrun⟩ := (Option.any_eq_true ..).mp hrun
  obtain ⟨⟨p, h⟩, hmalloc, hrun⟩ := (Option.any_eq_true ..).mp hrun
  obtain ⟨⟨pages, st⟩, hget, heq⟩ := (Option.any_eq_true ..).mp hrun
  obtain ⟨rfl, hpages, hlive⟩ : p = pages + arenaSize ∧ h.pages = [⟨pages, pgSize⟩] ∧
    st.live = [⟨pages, 1, false⟩] := of_decide_eq_true heq
  refine ⟨a, h, pages, st, hinit, hmalloc, hget, hpages,
    palloc_serves_heap (.step (.init ⟨hinit, rfl⟩) trivial hget) (fun r hr => ?_) _⟩
  rw [hpages, List.mem_singleton] at hr
  exact ⟨⟨pages, 1, false⟩, hlive ▸ .head _, hr.trans (by rw [Nat.one_mul])⟩

/-! ## Sizes at the top of the range -/

section Top

variable {env : HeapEnv} {h : Heap} {size n : Nat}

theorem malloc_big (hsize : 1024 < size)
    (hn : (size + arenaSize + pgSize - 1) % 2 ^ 32 / pgSize = n) :
    malloc env size h = if env.palloc n = 0 then some (0, h) else some (env.palloc n + arenaSize,
      (h.getPages (env.palloc n) n).setArena (env.palloc n) ⟨none, n⟩ env.junk) := by
  have hdesc : descFor size = none := by
    refine List.find?_eq_none.mpr fun d _ => ?_
    have hle : (desc d).blockSize ≤ 1024 := by
      revert d
      decide
    rw [decide_eq_true_iff]
    omega
  rw [malloc, if_neg (by omega), hdesc, ← hn]

theorem pages_eq_zero (hlow : 2 ^ 32 - 4108 < size) (hhigh : size + arenaSize ≤ 2 ^ 32) :
    (size + arenaSize + pgSize - 1) % 2 ^ 32 / pgSize = 0 := by
  simp only [arenaSize, pgSize] at hhigh ⊢
  omega

/-- A page allocator that has all pages from an address on. -/
def pagesFrom (base : Nat) : HeapEnv :=
  ⟨fun n => if n = 0 ∨ 2 ^ 32 < base + n * pgSize then 0 else base, fun _ => 0⟩

/-- The largest one that `EnvOk` allows: it has all pages but the first. -/
abbrev allPages : HeapEnv := pagesFrom pgSize

theorem palloc_allPages (hpos : n ≠ 0) (hlt : n < 2 ^ 20) : allPages.palloc n = pgSize :=
  if_neg (by simp only [pgSize]; omega)

theorem envOk_allPages : EnvOk emptyHeap.heap allPages := by
  intro n hn
  by_cases hlt : 2 ^ 20 ≤ n
  · exact .inl (if_pos (.inr (by simp only [pgSize]; omega)))
  · rw [palloc_allPages hn.ne' (Nat.lt_of_not_le hlt)]
    exact .inr ⟨by decide, by decide, by simp only [pgSize]; omega, nofun⟩

theorem heapInv_emptyHeap : HeapInv emptyHeap.heap [] :=
  have hlive : LiveInv emptyHeap := .of_start ⟨rfl, rfl, fun _ => rfl, fun _ => rfl⟩
  hlive.inv

theorem malloc_allPages (hsize : 1024 < size)
    (hn : (size + arenaSize + pgSize - 1) % 2 ^ 32 / pgSize = n) (hpos : n ≠ 0) :
    malloc allPages size emptyHeap.heap = some (pgSize + arenaSize,
      (emptyHeap.heap.getPages pgSize n).setArena pgSize ⟨none, n⟩ fun _ => 0) := by
  have hlt : n < 2 ^ 20 := by
    rw [← hn, pgSize]
    omega
  rw [malloc_big hsize hn, palloc_allPages hpos hlt]
  rfl

/-- **`malloc` gives enough**: it returns a null pointer, or a block of this size or more. -/
def GivesEnough (size : Nat) : Prop :=
  ∀ h live env, HeapInv h live → EnvOk h env → env.palloc 0 = 0 →
    ∃ p h', malloc env size h = some (p, h') ∧ (p = 0 ∨ ∃ n, h'.blockSize p = some n ∧ size ≤ n)

theorem givesEnough_iff (hsize : size < 2 ^ 32) : GivesEnough size ↔ size + arenaSize ≤ 2 ^ 32 := by
  constructor
  · intro henough
    by_contra hwrap
    -- the sum wraps to a page and up to ten bytes
    have hn : (size + arenaSize + pgSize - 1) % 2 ^ 32 / pgSize = 1 := by
      simp only [arenaSize, pgSize] at hwrap ⊢
      omega
    simp only [arenaSize] at hwrap
    obtain ⟨p, h', hrun, hp⟩ := henough _ [] _ heapInv_emptyHeap envOk_allPages rfl
    cases (malloc_allPages (by omega) hn one_ne_zero).symm.trans hrun
    obtain hp | ⟨n, hn, hle⟩ := hp
    · exact absurd hp (by decide)
    · have hn : some 4084 = some n := hn
      cases hn
      omega
  · intro hwrap h live env hinv henv hnull
    rcases Nat.lt_or_ge (2 ^ 32 - 4108) size with hlow | hle
    · refine ⟨0, h, ?_, .inl rfl⟩
      rw [malloc_big (by omega) (pages_eq_zero hlow hwrap), if_pos hnull]
    · obtain ⟨p, h', hrun, hcase⟩ := malloc_spec hinv henv hle
      exact ⟨p, h', hrun, hcase.imp And.left Handed.large⟩

/-- **`malloc` gives enough exactly if** the size and the header fit in 32 bits. -/
theorem malloc_gives_enough_iff (size : Fin (2 ^ 32)) :
    GivesEnough size ↔ size.val + arenaSize ≤ 2 ^ 32 := givesEnough_iff size.isLt

/-- **A block of 4084 bytes** for a request of nearly 4 GB. -/
theorem malloc_gives_too_little : ∃ h', malloc onePage 0xfffffff5 emptyHeap.heap
    = some (0xc040000c, h') ∧ h'.blockSize 0xc040000c = some 4084 := ⟨_, rfl, rfl⟩

/-- **`calloc` detects an overflow**: it returns a null pointer, and otherwise, where `malloc` gives
enough, as many zeros as it was asked for. -/
def DetectsOverflow (a b : Nat) : Prop :=
  ∀ h live env, HeapInv h live → EnvOk h env → env.palloc 0 = 0 →
    (2 ^ 32 ≤ a * b → ∃ h', calloc env a b h = some (0, h')) ∧
    (GivesEnough (a * b % 2 ^ 32) → ∃ p h', calloc env a b h = some (p, h') ∧ (p = 0 ∨
      ∃ n, h'.blockSize p = some n ∧ a * b ≤ n ∧ ∀ i < a * b, h'.bytes (p + i) = 0))

/-- **`calloc` detects an overflow exactly if** the product, cut to 32 bits, is less than a factor
or one of the sizes for which `malloc` asks for no page. -/
theorem calloc_detects_overflow_iff (a b : Fin (2 ^ 32)) :
    DetectsOverflow a b ↔ a.val * b < 2 ^ 32 ∨ a.val * b % 2 ^ 32 < a ∨ a.val * b % 2 ^ 32 < b ∨
      (2 ^ 32 - 4108 < a.val * b % 2 ^ 32 ∧ a.val * b % 2 ^ 32 + arenaSize ≤ 2 ^ 32) := by
  obtain ⟨b, -⟩ := b
  dsimp only
  constructor
  · intro hdetects
    by_contra hnot
    simp only [not_or, Nat.not_lt] at hnot
    obtain ⟨hover, ha, hb, hout⟩ := hnot
    obtain ⟨h', hrun⟩ := (hdetects _ [] _ heapInv_emptyHeap envOk_allPages rfl).1 hover
    have hbig : 1024 < a * b % 2 ^ 32 := by
      by_contra hsmall
      have := Nat.mul_le_mul (ha.trans (Nat.not_lt.mp hsmall)) (hb.trans (Nat.not_lt.mp hsmall))
      omega
    have hpos : (a * b % 2 ^ 32 + arenaSize + pgSize - 1) % 2 ^ 32 / pgSize ≠ 0 := by
      simp only [arenaSize, pgSize] at hout ⊢
      omega
    rw [calloc, if_neg (by omega), malloc_allPages hbig rfl hpos, Option.bind_some] at hrun
    obtain ⟨h1, -, hpair⟩ := Option.map_eq_some_iff.mp hrun
    cases (Prod.mk.inj hpair).1
  · intro hcond h live env hinv henv hnull
    have hzero : a * b % 2 ^ 32 < a ∨ a * b % 2 ^ 32 < b ∨ (2 ^ 32 - 4108 < a * b % 2 ^ 32 ∧
        a * b % 2 ^ 32 + arenaSize ≤ 2 ^ 32) → calloc env a b h = some (0, h) := by
      intro hcase
      rw [calloc]
      split
      next => rfl
      next hfits =>
        obtain ⟨hlow, hhigh⟩ := (hcase.resolve_left fun hc => hfits (.inl hc)).resolve_left
          fun hc => hfits (.inr hc)
        rw [malloc_big (by omega) (pages_eq_zero hlow hhigh), if_pos hnull]
        rfl
    rcases hcond with hfits | hcase
    · refine ⟨fun hover => absurd hfits (Nat.not_lt.mpr hover), fun henough => ?_⟩
      rw [Nat.mod_eq_of_lt hfits] at henough hzero
      rcases Nat.lt_or_ge (2 ^ 32 - 4108) (a * b) with hlow | hle
      · exact ⟨0, h, hzero (.inr (.inr ⟨hlow, (givesEnough_iff hfits).mp henough⟩)), .inl rfl⟩
      · obtain ⟨p, h', hrun, hp⟩ := calloc_spec hinv henv hle
        refine ⟨p, h', hrun, hp.imp And.left fun hnew => ?_⟩
        obtain ⟨n, hn, hle⟩ := hnew.1.large
        exact ⟨n, hn, hle, hnew.2⟩
    · exact ⟨fun _ => ⟨h, hzero hcase⟩, fun _ => ⟨0, h, hzero hcase, .inl rfl⟩⟩

/-- **An overflow that is not detected**: `0x10001 * 0x10001` bytes are 131073, in 32 bits. -/
theorem calloc_misses_overflow : ∃ h', calloc (pagesFrom 0xc0400000) 0x10001 0x10001 emptyHeap.heap
    = some (0xc040000c, h') ∧ h'.blockSize 0xc040000c = some 135156 := ⟨_, rfl, rfl⟩

end Top

end Pintos
