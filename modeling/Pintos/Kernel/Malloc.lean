import Pintos.Kernel.Palloc

/-!
# The heap

`threads/malloc.c`: a request is rounded up to a power of two, and served from the free list of the
descriptor for that size.  A descriptor without a free block gets a page, an *arena*, and cuts it
into blocks behind a header; an arena that is free as a whole goes back to the page allocator.
Requests over 1 kB get pages of their own, behind a header as well.

* The heap has what the headers hold (`Heap.arena`) and what the links of the free lists say
  (`Heap.freeList`) next to the bytes of the memory.  In return, whenever a header or a link is
  written, its bytes take whatever value the surroundings say (`HeapEnv.junk`), and a write to
  bytes of a header or a link in use has no result (`Heap.store`).
* The page allocator is part of the surroundings too: `HeapEnv.palloc` is what it returns, and
  `EnvOk` says that those pages were not handed out.
* A failed assertion has no result.

The invariant is in `Kernel/Arenas.lean`, and what follows from it in `Kernel/Heap.lean`.
-/

namespace Pintos

open Ranges Palloc

namespace Palloc

/-- `pg_round_down`. -/
def pgRoundDown (va : Nat) : Nat := va / pgSize * pgSize

end Palloc

/-! ## Descriptors -/

/-- `struct desc`, without its free list. -/
structure Desc where
  blockSize : Nat
  blocksPerArena : Nat

/-- `sizeof (struct arena)`. -/
def arenaSize : Nat := 12

/-- `sizeof (struct block)`, which is that of its links. -/
def linkSize : Nat := 8

/-- The loop of `malloc_init`, with as many descriptors as there is still room for. -/
def initDescs : Nat → Nat → List Desc
  | 0, _ => []
  | room + 1, blockSize =>
    if blockSize < pgSize / 2 then
      ⟨blockSize, (pgSize - arenaSize) / blockSize⟩ :: initDescs room (blockSize * 2)
    else []

/-- `malloc_init`. -/
def mallocInit : List Desc := initDescs 10 16

/-- A pointer to a descriptor. -/
abbrev DescId := Fin mallocInit.length

/-- The descriptor it points to. -/
def desc (d : DescId) : Desc := mallocInit.get d

theorem desc_spec (d : DescId) : linkSize ≤ (desc d).blockSize ∧ 0 < (desc d).blocksPerArena ∧
    arenaSize + (desc d).blocksPerArena * (desc d).blockSize ≤ pgSize := by
  revert d
  decide

/-! ## The heap -/

/-- `struct arena`, with its magic number. -/
structure Arena where
  /-- `desc`, which is null for a big block. -/
  desc : Option DescId
  /-- `free_cnt`: free blocks, or the pages of a big block. -/
  freeCnt : Nat
deriving DecidableEq

/-- The number of pages of an arena. -/
def Arena.pageCnt (ar : Arena) : Nat := if ar.desc.isSome then 1 else ar.freeCnt

theorem Arena.pageCnt_some (d : DescId) (freeCnt : Nat) :
    (Arena.mk (some d) freeCnt).pageCnt = 1 := rfl

theorem Arena.pageCnt_none (freeCnt : Nat) : (Arena.mk none freeCnt).pageCnt = freeCnt := rfl

/-- The heap. -/
structure Heap where
  /-- The header at an address, if one is there. -/
  arena : Nat → Option Arena
  /-- The addresses of the blocks on a descriptor's free list. -/
  freeList : DescId → List Nat
  /-- What the heap has from the page allocator, in bytes. -/
  pages : List Range
  bytes : Nat → UInt8

/-- What a call finds around the heap. -/
structure HeapEnv where
  /-- What the page allocator returns for a number of pages, with 0 for a null pointer. -/
  palloc : Nat → Nat
  /-- What the bytes of a header or of a link are after they were written. -/
  junk : Nat → UInt8

namespace Heap

/-- Write the header of an arena. -/
def setArena (h : Heap) (a : Nat) (ar : Arena) (junk : Nat → UInt8) : Heap :=
  { h with
    arena := Function.update h.arena a (some ar)
    bytes := fun x => if (⟨a, arenaSize⟩ : Range).Has x then junk x else h.bytes x }

/-- Change a free list, by writing links of blocks that are then on it. -/
def setFree (h : Heap) (d : DescId) (l : List Nat) (junk : Nat → UInt8) : Heap :=
  { h with
    freeList := Function.update h.freeList d l
    bytes := fun x => if ∃ b ∈ l, (⟨b, linkSize⟩ : Range).Has x then junk x else h.bytes x }

theorem freeList_setFree (h : Heap) (d : DescId) (l : List Nat) (junk : Nat → UInt8) :
    (h.setFree d l junk).freeList d = l :=
  Function.update_self ..

/-- No header and no link in use has bytes in this range. -/
def Clean (h : Heap) (r : Range) : Prop :=
  (∀ s ∈ h.pages, r.Apart ⟨s.start, arenaSize⟩) ∧
    ∀ d, ∀ b ∈ h.freeList d, r.Apart ⟨b, linkSize⟩

instance (h : Heap) (r : Range) : Decidable (h.Clean r) :=
  inferInstanceAs (Decidable ((∀ s ∈ h.pages, r.Apart ⟨s.start, arenaSize⟩) ∧
    ∀ d, ∀ b ∈ h.freeList d, r.Apart ⟨b, linkSize⟩))

/-- Write bytes, as `memset` and `memcpy` do. -/
def store (h : Heap) (r : Range) (value : Nat → UInt8) : Option Heap :=
  if h.Clean r then some { h with bytes := fun x => if r.Has x then value x else h.bytes x }
  else none

/-- Pages come from the page allocator. -/
def getPages (h : Heap) (a pageCnt : Nat) : Heap :=
  { h with pages := ⟨a, pageCnt * pgSize⟩ :: h.pages }

/-- `palloc_free_multiple`, of an arena. -/
def freePages (h : Heap) (a pageCnt : Nat) : Option Heap :=
  let r : Range := ⟨a, pageCnt * pgSize⟩
  if r ∈ h.pages then
    some { h with
      arena := Function.update h.arena a none
      pages := h.pages.erase r
      bytes := fun x => if r.Has x then 0xcc else h.bytes x }
  else none

/-- `block_to_arena`: the address of the arena, and what its header holds. -/
def blockToArena (h : Heap) (b : Nat) : Option (Nat × Arena) :=
  let a := pgRoundDown b
  if a = 0 then none
  else match h.arena a with
    | none => none
    | some ar => match ar.desc with
      | some d =>
        if (pgOfs b + 2 ^ 32 - arenaSize) % 2 ^ 32 % (Pintos.desc d).blockSize = 0 then some (a, ar)
        else none
      | none => if pgOfs b = arenaSize then some (a, ar) else none

end Heap

/-- The address of a block of an arena. -/
def blockAt (d : DescId) (a idx : Nat) : Nat := a + arenaSize + idx * (desc d).blockSize

/-- `arena_to_block`. -/
def Heap.arenaToBlock (h : Heap) (a idx : Nat) : Option Nat :=
  if a = 0 then none
  else match h.arena a with
    | none => none
    | some ar => match ar.desc with
      | some d => if idx < (Pintos.desc d).blocksPerArena then some (blockAt d a idx) else none
      | none => none

/-- The loop of `malloc` that adds the blocks of a new arena to the free list. -/
def addBlocks (env : HeapEnv) (d : DescId) (a : Nat) (idxs : List Nat) (h : Heap) : Option Heap :=
  idxs.foldlM (fun h i => (h.arenaToBlock a i).map fun b =>
    h.setFree d (h.freeList d ++ [b]) env.junk) h

/-- The end of `malloc`: the first block of the free list. -/
def popBlock (env : HeapEnv) (d : DescId) (h : Heap) : Option (Nat × Heap) :=
  match h.freeList d with
  | [] => none
  | b :: l =>
    let h := h.setFree d l env.junk
    (h.blockToArena b).map fun r =>
      (b, h.setArena r.1 { r.2 with freeCnt := (r.2.freeCnt + 2 ^ 32 - 1) % 2 ^ 32 } env.junk)

/-- The descriptor that `malloc` picks. -/
def descFor (size : Nat) : Option DescId :=
  (List.finRange mallocInit.length).find? fun d => decide ((desc d).blockSize ≥ size)

/-- `malloc`. -/
def malloc (env : HeapEnv) (size : Nat) (h : Heap) : Option (Nat × Heap) :=
  if size = 0 then some (0, h)
  else match descFor size with
    | none =>
      let pageCnt := (size + arenaSize + pgSize - 1) % 2 ^ 32 / pgSize
      let a := env.palloc pageCnt
      if a = 0 then some (0, h)
      else some (a + arenaSize, (h.getPages a pageCnt).setArena a ⟨none, pageCnt⟩ env.junk)
    | some d =>
      if h.freeList d = [] then
        let a := env.palloc 1
        if a = 0 then some (0, h)
        else (addBlocks env d a (List.range (desc d).blocksPerArena)
          ((h.getPages a 1).setArena a ⟨some d, (desc d).blocksPerArena⟩ env.junk)).bind
          (popBlock env d)
      else popBlock env d h

/-- `calloc`. -/
def calloc (env : HeapEnv) (a b : Nat) (h : Heap) : Option (Nat × Heap) :=
  let size := a * b % 2 ^ 32
  if size < a ∨ size < b then some (0, h)
  else (malloc env size h).bind fun r =>
    if r.1 ≠ 0 then (r.2.store ⟨r.1, size⟩ fun _ => 0).map (r.1, ·) else some r

/-- `block_size`. -/
def Heap.blockSize (h : Heap) (block : Nat) : Option Nat :=
  (h.blockToArena block).map fun r => match r.2.desc with
    | some d => (Pintos.desc d).blockSize
    | none => pgSize * r.2.freeCnt - pgOfs block

/-- The loop of `free` that takes the blocks of an arena off the free list. -/
def removeBlocks (env : HeapEnv) (d : DescId) (a : Nat) (idxs : List Nat) (h : Heap) :
    Option Heap :=
  idxs.foldlM (fun h i => (h.arenaToBlock a i).bind fun b =>
    if b ∈ h.freeList d then some (h.setFree d ((h.freeList d).erase b) env.junk) else none) h

/-- `free`. -/
def free (env : HeapEnv) (p : Nat) (h : Heap) : Option Heap :=
  if p = 0 then some h
  else (h.blockToArena p).bind fun r => match r.2.desc with
    | none => h.freePages r.1 r.2.freeCnt
    | some d => (h.store ⟨p, (desc d).blockSize⟩ fun _ => 0xcc).bind fun h =>
      let freeCnt := (r.2.freeCnt + 1) % 2 ^ 32
      let h := (h.setFree d (p :: h.freeList d) env.junk).setArena r.1 ⟨some d, freeCnt⟩ env.junk
      if freeCnt ≥ (desc d).blocksPerArena then
        if freeCnt = (desc d).blocksPerArena then
          (removeBlocks env d r.1 (List.range (desc d).blocksPerArena) h).bind fun h =>
            h.freePages r.1 1
        else none
      else some h

/-- `realloc`. -/
def realloc (env : HeapEnv) (oldBlock newSize : Nat) (h : Heap) : Option (Nat × Heap) :=
  if newSize = 0 then (free env oldBlock h).map (0, ·)
  else (malloc env newSize h).bind fun r =>
    if oldBlock ≠ 0 ∧ r.1 ≠ 0 then
      (r.2.blockSize oldBlock).bind fun oldSize =>
        let minSize := if newSize < oldSize then newSize else oldSize
        (r.2.store ⟨r.1, minSize⟩ fun x => r.2.bytes (oldBlock + (x - r.1))).bind fun h =>
          (free env oldBlock h).map (r.1, ·)
    else some r

/-! ## The machine -/

/-- The heap, and the live blocks with the sizes they were asked for with. -/
structure HeapState where
  heap : Heap
  /-- The blocks that were not freed. -/
  live : List Range

/-- A call to the heap. -/
inductive HeapCall where
  /-- `malloc`. -/
  | malloc (size : Nat)
  /-- `calloc`. -/
  | calloc (a b : Nat)
  /-- `realloc`, of a block or of a null pointer. -/
  | realloc (oldBlock : Option Range) (newSize : Nat)
  /-- `free`, of a block or of a null pointer. -/
  | free (p : Option Range)
  /-- The owner of a block writes a byte of it. -/
  | write (p : Range) (ofs : Nat) (value : UInt8)

/-- The address of a block, with 0 for a null pointer. -/
def addressOf (p : Option Range) : Nat := (p.map Range.start).getD 0

/-- The live blocks, with one more unless it is null. -/
def addLive (p size : Nat) (live : List Range) : List Range :=
  if p = 0 then live else ⟨p, size⟩ :: live

/-- The live blocks, without one unless it is null. -/
def dropLive (p : Option Range) (live : List Range) : List Range := p.elim live live.erase

/-- The heap, with calls and what they find around them. -/
def heapMachine : Machine HeapState (HeapCall × HeapEnv) Nat where
  step st
    | (.malloc size, env) => (malloc env size st.heap).map fun r =>
        (r.1, ⟨r.2, addLive r.1 size st.live⟩)
    | (.calloc a b, env) => (calloc env a b st.heap).map fun r =>
        (r.1, ⟨r.2, addLive r.1 (a * b) st.live⟩)
    | (.realloc oldBlock newSize, env) =>
      (realloc env (addressOf oldBlock) newSize st.heap).map fun r =>
        -- a request that fails leaves the old block alone
        (r.1, ⟨r.2, addLive r.1 newSize
          (if r.1 = 0 ∧ newSize ≠ 0 then st.live else dropLive oldBlock st.live)⟩)
    | (.free p, env) => (free env (addressOf p) st.heap).map fun h => (0, ⟨h, dropLive p st.live⟩)
    | (.write p ofs value, _) => (st.heap.store ⟨p.start + ofs, 1⟩ fun _ => value).map fun h =>
        (0, ⟨h, st.live⟩)

/-- The page allocator returns pages, none of which the heap has. -/
def EnvOk (h : Heap) (env : HeapEnv) : Prop :=
  ∀ pageCnt, 0 < pageCnt → env.palloc pageCnt = 0 ∨
    env.palloc pageCnt ≠ 0 ∧ pgOfs (env.palloc pageCnt) = 0 ∧
      env.palloc pageCnt + pageCnt * pgSize ≤ 2 ^ 32 ∧
      ∀ r ∈ h.pages, Range.Apart ⟨env.palloc pageCnt, pageCnt * pgSize⟩ r

/-- Requests are for up to `2 ^ 31` bytes, and what is freed or written is live. -/
def CallOk (st : HeapState) : HeapCall → Prop
  | .malloc size => size ≤ 2 ^ 31
  | .calloc a b => a * b ≤ 2 ^ 31
  | .realloc oldBlock newSize => (∀ p ∈ oldBlock, p ∈ st.live) ∧ newSize ≤ 2 ^ 31
  | .free p => ∀ x ∈ p, x ∈ st.live
  | .write p ofs _ => p ∈ st.live ∧ ofs < p.cnt

instance (st : HeapState) : (call : HeapCall) → Decidable (CallOk st call)
  | .malloc _ => inferInstanceAs (Decidable (_ ≤ _))
  | .calloc _ _ => inferInstanceAs (Decidable (_ ≤ _))
  | .realloc _ _ => inferInstanceAs (Decidable (_ ∧ _))
  | .free p => inferInstanceAs (Decidable (∀ x ∈ p, x ∈ st.live))
  | .write _ _ _ => inferInstanceAs (Decidable (_ ∧ _))

/-- What the calls of a run meet. -/
def HeapGuard (st : HeapState) (call : HeapCall × HeapEnv) : Prop :=
  CallOk st call.1 ∧ EnvOk st.heap call.2

/-- The heap after `malloc_init`: without an arena or a free block, with whatever bytes. -/
def HeapStart (st : HeapState) : Prop :=
  st.live = [] ∧ st.heap.pages = [] ∧ (∀ a, st.heap.arena a = none) ∧
    ∀ d, st.heap.freeList d = []

end Pintos
