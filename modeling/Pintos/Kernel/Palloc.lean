import Pintos.Kernel.Bitmap
import Pintos.Lib.Machine
import Pintos.Lib.Ranges

/-!
# The page allocator

`threads/palloc.c`: the memory behind the kernel is cut into two pools, one for the kernel and one
for user pages.  Each pool has a bitmap of its pages, which lies in the pool's own first pages, and
`palloc_get_multiple` takes the first run of clear bits that is long enough.

* Addresses are numbers.  `Memory` has what the machine decides: where the kernel ends, and how much
  memory there is, which the loader caps at 64 MB.  So no address reaches `2 ^ 32`.
* What the pages hold is left out: the allocator fills pages that it hands out or takes back, and
  looks at none of them.
* The state of a run has the live allocations next to the pools, each with the flag `PAL_USER` it
  was asked for with.

`palloc_ok` says that in every state reached, from any memory for which `palloc_init` does not
panic, live allocations are apart, lie in the pool they were asked from and outside the bitmaps, and
are what the bitmaps record; that each of them can be freed, into the pool it came from; and that a
request is refused only for want of a run of free pages (`PallocOk`).  The two bitmaps together mark
the pages of one memory (`PageAllocator.taken`), to which `Lib/Ranges.lean` applies.
-/

namespace Pintos

open Ranges

namespace Palloc

/-- `PGSIZE`. -/
abbrev pgSize : Nat := 4096

/-- `PHYS_BASE`. -/
abbrev physBase : Nat := 0xc0000000

/-- `pg_no`. -/
def pgNo (va : Nat) : Nat := va / pgSize

/-- `pg_ofs`. -/
def pgOfs (va : Nat) : Nat := va % pgSize

/-- `pg_round_up`. -/
def pgRoundUp (va : Nat) : Nat := (va + pgSize - 1) / pgSize * pgSize

end Palloc

open Palloc

/-- The number of pages that the loader reports for a memory, in kB: it caps memory at 64 MB. -/
def loaderRamPages (kbytes : Nat) : Nat := (if kbytes ≤ 0x10000 then kbytes else 0x10000) / 4

theorem loaderRamPages_le (kbytes : Nat) : loaderRamPages kbytes ≤ 0x4000 := by
  rw [loaderRamPages]
  split <;> omega

/-- The memory of the machine, at `PHYS_BASE`. -/
structure Memory where
  /-- The address `_end`, at which the kernel ends. -/
  kernelEnd : Nat
  kbytes : Nat
  /-- The kernel lies at the start of the memory. -/
  low : physBase ≤ kernelEnd
  high : kernelEnd ≤ physBase + loaderRamPages kbytes * pgSize

/-- `ram_pages`. -/
def Memory.ramPages (M : Memory) : Nat := loaderRamPages M.kbytes

/-- `struct pool`. -/
structure Pool where
  usedMap : Bitmap
  base : Nat

/-- `kernel_pool` and `user_pool`. -/
structure PageAllocator where
  kernelPool : Pool
  userPool : Pool

/-- The flags of `palloc_get_multiple` that say more than what to fill the pages with. -/
structure PallocFlags where
  user : Bool
  assert : Bool

/-! ## The routines -/

/-- `bitmap_buf_size`. -/
def bitmapBufSize (bitCnt : Nat) : Nat := 8 + 4 * ((bitCnt + 31) / 32)

/-- `bm_pages` of `init_pool`. -/
def bmPages (pageCnt : Nat) : Nat := (bitmapBufSize pageCnt + pgSize - 1) / pgSize

/-- `init_pool`, which panics if the bitmap does not fit. -/
def initPool (base pageCnt : Nat) : Option Pool :=
  if bmPages pageCnt > pageCnt then none
  else some ⟨Bitmap.create (pageCnt - bmPages pageCnt), base + bmPages pageCnt * pgSize⟩

namespace Memory

variable (M : Memory) (userPageLimit : Nat)

/-- `free_start` of `palloc_init`. -/
def freeStart : Nat := pgRoundUp M.kernelEnd

/-- `free_pages`. -/
def freePages : Nat := (physBase + M.ramPages * pgSize - M.freeStart) / pgSize

/-- `user_pages`. -/
def userPages : Nat :=
  if M.freePages / 2 > userPageLimit then userPageLimit else M.freePages / 2

/-- `kernel_pages`. -/
def kernelPages : Nat := M.freePages - M.userPages userPageLimit

/-- The address of the bitmap of a pool, at which its memory starts. -/
def poolStart (user : Bool) : Nat :=
  if user then M.freeStart + M.kernelPages userPageLimit * pgSize else M.freeStart

end Memory

/-- `palloc_init`. -/
def pallocInit (M : Memory) (userPageLimit : Nat) : Option PageAllocator := do
  let kernelPool ← initPool M.freeStart (M.kernelPages userPageLimit)
  let userPool ← initPool (M.freeStart + M.kernelPages userPageLimit * pgSize)
    (M.userPages userPageLimit)
  return ⟨kernelPool, userPool⟩

namespace PageAllocator

/-- The pool that a flag selects. -/
def pool (a : PageAllocator) (user : Bool) : Pool := if user then a.userPool else a.kernelPool

/-- Store the bitmap of a pool. -/
def setMap (a : PageAllocator) (user : Bool) (usedMap : Bitmap) : PageAllocator :=
  if user then { a with userPool := { a.userPool with usedMap := usedMap } }
  else { a with kernelPool := { a.kernelPool with usedMap := usedMap } }

end PageAllocator

/-- `palloc_get_multiple`: the address of the pages, with 0 for a null pointer.  Without a result it
panics. -/
def pallocGetMultiple (flags : PallocFlags) (pageCnt : Nat) (a : PageAllocator) :
    Option (Nat × PageAllocator) :=
  if pageCnt = 0 then some (0, a)
  else
    let r := match (a.pool flags.user).usedMap.scanAndFlip 0 pageCnt false with
      | some (pageIdx, usedMap) =>
        ((a.pool flags.user).base + pgSize * pageIdx, a.setMap flags.user usedMap)
      | none => (0, a)
    if r.1 = 0 ∧ flags.assert then none else some r

/-- `page_from_pool`. -/
def pageFromPool (p : Pool) (page : Nat) : Bool :=
  decide (pgNo p.base ≤ pgNo page) && decide (pgNo page < pgNo p.base + p.usedMap.bitCnt)

/-- The pool that `palloc_free_multiple` picks, if it picks one. -/
def poolOf (a : PageAllocator) (pages : Nat) : Option Bool :=
  if pageFromPool a.kernelPool pages then some false
  else if pageFromPool a.userPool pages then some true
  else none

/-- `palloc_free_multiple`. -/
def pallocFreeMultiple (pages pageCnt : Nat) (a : PageAllocator) : Option PageAllocator :=
  if pgOfs pages ≠ 0 then none
  else if pages = 0 ∨ pageCnt = 0 then some a
  else match poolOf a pages with
    | none => none
    | some user =>
      let usedMap := (a.pool user).usedMap
      let pageIdx := pgNo pages - pgNo (a.pool user).base
      -- the assertions are that of `bitmap_contains` about its range, and that all bits are set
      if pageIdx + pageCnt ≤ usedMap.bitCnt ∧ usedMap.all pageIdx pageCnt then
        some (a.setMap user (usedMap.setMultiple pageIdx pageCnt false))
      else none

/-! ## The machine -/

/-- A live allocation. -/
structure Allocation where
  pages : Nat
  pageCnt : Nat
  /-- Was it asked for with `PAL_USER`? -/
  user : Bool
deriving DecidableEq

/-- The numbers of its pages. -/
def Allocation.range (x : Allocation) : Range := ⟨pgNo x.pages, x.pageCnt⟩

/-- The pools, and the live allocations. -/
structure PallocState where
  allocator : PageAllocator
  /-- The allocations that were not freed. -/
  live : List Allocation

/-- A call to the allocator. -/
inductive PallocCall where
  /-- `palloc_get_multiple`. -/
  | get (flags : PallocFlags) (pageCnt : Nat)
  /-- `palloc_free_multiple` of an allocation. -/
  | free (x : Allocation)

/-- The page allocator.  Only live allocations are freed. -/
def pallocMachine : Machine PallocState PallocCall Nat where
  step st
    | .get flags pageCnt => (pallocGetMultiple flags pageCnt st.allocator).map fun r =>
        (r.1, ⟨r.2, if r.1 = 0 then st.live else ⟨r.1, pageCnt, flags.user⟩ :: st.live⟩)
    | .free x =>
      if x ∈ st.live then (pallocFreeMultiple x.pages x.pageCnt st.allocator).map fun a =>
        (0, ⟨a, st.live.erase x⟩)
      else none

/-- The state after `palloc_init`. -/
def PallocStart (M : Memory) (userPageLimit : Nat) (st : PallocState) : Prop :=
  pallocInit M userPageLimit = some st.allocator ∧ st.live = []

/-! ## The layout of the pools -/

/-- How the two pools lie: each behind its bitmap, the user pool behind the kernel pool. -/
structure PoolsLie (M : Memory) (userPageLimit : Nat) (a : PageAllocator) : Prop where
  aligned : ∀ user, pgOfs (a.pool user).base = 0
  /-- The memory of a pool starts with its bitmap. -/
  start : ∀ user, M.poolStart userPageLimit user ≤ (a.pool user).base
  /-- The kernel pool starts behind `PHYS_BASE`. -/
  low : physBase ≤ M.poolStart userPageLimit false
  /-- It ends where the memory of the user pool starts. -/
  middle : a.kernelPool.base + a.kernelPool.usedMap.bitCnt * pgSize
    = M.poolStart userPageLimit true
  /-- The user pool ends inside the memory. -/
  high : a.userPool.base + a.userPool.usedMap.bitCnt * pgSize
    ≤ physBase + M.ramPages * pgSize

theorem Memory.freeStart_spec (M : Memory) :
    pgOfs M.freeStart = 0 ∧ physBase ≤ M.freeStart ∧
      M.freeStart + M.freePages * pgSize ≤ physBase + M.ramPages * pgSize := by
  have hlow := M.low
  have hhigh : M.kernelEnd ≤ physBase + M.ramPages * pgSize := M.high
  simp only [Memory.freePages, Memory.freeStart, pgRoundUp, pgOfs, pgSize, physBase] at *
  omega

theorem initPool_spec {base pageCnt : Nat} {p : Pool} (h : initPool base pageCnt = some p) :
    ∃ k, p.base = base + k * pgSize ∧ p.base + p.usedMap.bitCnt * pgSize = base + pageCnt * pgSize ∧
      ∀ i, p.usedMap.bits i = false := by
  rw [initPool] at h
  split at h
  · nomatch h
  · obtain rfl := Option.some_inj.mp h
    refine ⟨bmPages pageCnt, rfl, ?_, fun _ => rfl⟩
    simp only [Bitmap.create, pgSize]
    omega

variable {M : Memory} {userPageLimit : Nat} {a : PageAllocator}

theorem poolsLie_init (h : pallocInit M userPageLimit = some a) :
    PoolsLie M userPageLimit a ∧ ∀ user i, (a.pool user).usedMap.bits i = false := by
  simp only [pallocInit, Option.bind_eq_bind, Option.bind_eq_some_iff] at h
  obtain ⟨kernelPool, hkernel, userPool, huser, ha⟩ := h
  obtain rfl := Option.some_inj.mp ha
  obtain ⟨k, hkbase, hkend, hkclear⟩ := initPool_spec hkernel
  obtain ⟨u, hubase, huend, huclear⟩ := initPool_spec huser
  obtain ⟨hofs, hlow, hhigh⟩ := M.freeStart_spec
  have hpages : M.kernelPages userPageLimit + M.userPages userPageLimit = M.freePages := by
    have huser : M.userPages userPageLimit ≤ M.freePages := by
      rw [Memory.userPages]
      split <;> omega
    rw [Memory.kernelPages]
    omega
  have hmiddle : kernelPool.base + kernelPool.usedMap.bitCnt * pgSize
      = M.poolStart userPageLimit true := hkend
  refine ⟨⟨fun user => ?_, fun user => ?_, hlow, hmiddle, ?_⟩, fun user i => ?_⟩
  · cases user
    · show pgOfs kernelPool.base = 0
      simp only [pgOfs, pgSize] at hofs hkbase ⊢
      omega
    · show pgOfs userPool.base = 0
      simp only [pgOfs, pgSize] at hofs hubase ⊢
      omega
  · cases user
    · exact hkbase ▸ Nat.le_add_right _ _
    · exact hubase ▸ Nat.le_add_right _ _
  · simp only [pgSize] at huend hpages hhigh ⊢
    omega
  · cases user
    · exact hkclear i
    · exact huclear i

/-! ## One memory -/

/-- The pages of a pool. -/
def PageAllocator.poolRange (a : PageAllocator) (user : Bool) : Range :=
  ⟨pgNo (a.pool user).base, (a.pool user).usedMap.bitCnt⟩

theorem PageAllocator.poolRange_has {user : Bool} {page : Nat} :
    (a.poolRange user).Has page ↔ pgNo (a.pool user).base ≤ page ∧
      page < pgNo (a.pool user).base + (a.pool user).usedMap.bitCnt :=
  .rfl

/-- The bit of a page, in the bitmap of a pool. -/
def PageAllocator.pageBit (a : PageAllocator) (user : Bool) (page : Nat) : Bool :=
  (a.pool user).usedMap.bits (page - pgNo (a.pool user).base)

/-- Is the page with this number taken, by the bitmap of the pool it is in? -/
def PageAllocator.taken (a : PageAllocator) (page : Nat) : Bool :=
  if (a.poolRange false).Has page then a.pageBit false page
  else if (a.poolRange true).Has page then a.pageBit true page
  else false

namespace PoolsLie

variable {M : Memory} {userPageLimit : Nat} {a : PageAllocator}

section

variable (h : PoolsLie M userPageLimit a) {page : Nat}
include h

theorem below : pgNo a.kernelPool.base + a.kernelPool.usedMap.bitCnt ≤ pgNo a.userPool.base := by
  have hstart : M.poolStart userPageLimit true ≤ a.userPool.base := h.start true
  have hmiddle := h.middle
  simp only [pgNo, pgSize] at *
  omega

theorem pool_apart : (a.poolRange false).Apart (a.poolRange true) := by
  rintro i ⟨-, hi⟩ ⟨hi', -⟩
  have hbelow := h.below
  change i < pgNo a.kernelPool.base + a.kernelPool.usedMap.bitCnt at hi
  change pgNo a.userPool.base ≤ i at hi'
  omega

theorem taken_of_has {user : Bool}
    (hpage : (a.poolRange user).Has page) : a.taken page = a.pageBit user page := by
  cases user with
  | false => exact if_pos hpage
  | true => rw [PageAllocator.taken, if_neg fun hk => h.pool_apart page hk hpage, if_pos hpage]

theorem pool_unique {user user' : Bool}
    (hpage : (a.poolRange user).Has page) (hpage' : (a.poolRange user').Has page) :
    user = user' := by
  cases user <;> cases user'
  · rfl
  · exact absurd hpage' (h.pool_apart page hpage)
  · exact absurd hpage (h.pool_apart page hpage')
  · rfl

end

end PoolsLie

namespace PageAllocator

theorem pool_setMap (a : PageAllocator) (user user' : Bool) (usedMap : Bitmap) :
    (a.setMap user usedMap).pool user'
      = if user' = user then { a.pool user with usedMap := usedMap } else a.pool user' := by
  cases user <;> cases user' <;> rfl

theorem base_setMap (a : PageAllocator) (user user' : Bool) (usedMap : Bitmap) :
    ((a.setMap user usedMap).pool user').base = (a.pool user').base := by
  cases user <;> cases user' <;> rfl

theorem bitCnt_setMap (a : PageAllocator) {user : Bool} (user' : Bool) {usedMap : Bitmap}
    (hcnt : usedMap.bitCnt = (a.pool user).usedMap.bitCnt) :
    ((a.setMap user usedMap).pool user').usedMap.bitCnt = (a.pool user').usedMap.bitCnt := by
  cases user <;> cases user' <;> first | rfl | exact hcnt

end PageAllocator

section Change

variable {M : Memory} {userPageLimit : Nat} {a : PageAllocator} {user : Bool} {usedMap : Bitmap}

theorem PoolsLie.setMap (h : PoolsLie M userPageLimit a)
    (hcnt : usedMap.bitCnt = (a.pool user).usedMap.bitCnt) :
    PoolsLie M userPageLimit (a.setMap user usedMap) where
  aligned user' := by
    rw [a.base_setMap]
    exact h.aligned user'
  start user' := by
    rw [a.base_setMap]
    exact h.start user'
  low := h.low
  middle := by
    have hbase := a.base_setMap user false usedMap
    have hbits := a.bitCnt_setMap false hcnt
    change (a.setMap user usedMap).kernelPool.base = a.kernelPool.base at hbase
    change (a.setMap user usedMap).kernelPool.usedMap.bitCnt = a.kernelPool.usedMap.bitCnt at hbits
    rw [hbase, hbits, h.middle]
  high := by
    have hbase := a.base_setMap user true usedMap
    have hbits := a.bitCnt_setMap true hcnt
    change (a.setMap user usedMap).userPool.base = a.userPool.base at hbase
    change (a.setMap user usedMap).userPool.usedMap.bitCnt = a.userPool.usedMap.bitCnt at hbits
    rw [hbase, hbits]
    exact h.high

/-- **A run of bits is stored**: the pages behind them change, and no others. -/
theorem PoolsLie.taken_setMultiple (h : PoolsLie M userPageLimit a) {pageIdx pageCnt : Nat}
    (hle : pageIdx + pageCnt ≤ (a.pool user).usedMap.bitCnt) (value : Bool) (page : Nat) :
    (a.setMap user ((a.pool user).usedMap.setMultiple pageIdx pageCnt value)).taken page
      = if (⟨pgNo (a.pool user).base + pageIdx, pageCnt⟩ : Range).Has page then value
        else a.taken page := by
  obtain ⟨a', ha'⟩ : ∃ a', a.setMap user
    ((a.pool user).usedMap.setMultiple pageIdx pageCnt value) = a' := ⟨_, rfl⟩
  have hcnt : ((a.pool user).usedMap.setMultiple pageIdx pageCnt value).bitCnt
      = (a.pool user).usedMap.bitCnt := rfl
  have hlie' : PoolsLie M userPageLimit a' := ha' ▸ h.setMap hcnt
  have hrange : ∀ user', a'.poolRange user' = a.poolRange user' := fun user' => by
    rw [PageAllocator.poolRange, PageAllocator.poolRange, ← ha', a.base_setMap,
      a.bitCnt_setMap user' hcnt]
  have hbit : ∀ user', a'.pageBit user' page = if user' = user ∧
      pageIdx ≤ page - pgNo (a.pool user).base ∧
        page - pgNo (a.pool user).base < pageIdx + pageCnt then value
      else a.pageBit user' page := by
    intro user'
    rw [PageAllocator.pageBit, ← ha', a.base_setMap, a.pool_setMap]
    by_cases huser : user' = user
    · subst huser
      simp only [true_and]
      rfl
    · rw [if_neg huser, if_neg fun hc => huser hc.1]
      rfl
  rw [ha']
  by_cases hin : ∃ user', (a.poolRange user').Has page
  · obtain ⟨user', hpage⟩ := hin
    rw [hlie'.taken_of_has (hrange user' ▸ hpage), h.taken_of_has hpage, hbit]
    refine if_congr ?_ rfl rfl
    constructor
    · rintro ⟨rfl, h1, h2⟩
      have hlow : pgNo (a.pool user').base ≤ page := hpage.1
      exact ⟨show pgNo (a.pool user').base + pageIdx ≤ page by omega,
        show page < pgNo (a.pool user').base + pageIdx + pageCnt by omega⟩
    · rintro ⟨h1, h2⟩
      change pgNo (a.pool user).base + pageIdx ≤ page at h1
      change page < pgNo (a.pool user).base + pageIdx + pageCnt at h2
      refine ⟨h.pool_unique hpage ⟨?_, ?_⟩, by omega, by omega⟩
      · show pgNo (a.pool user).base ≤ page
        omega
      · show page < pgNo (a.pool user).base + (a.pool user).usedMap.bitCnt
        omega
  · have hout : ∀ user', ¬ (a.poolRange user').Has page := fun user' hp => hin ⟨user', hp⟩
    have hnone : ∀ b : PageAllocator, (∀ user', ¬ (b.poolRange user').Has page) →
        b.taken page = false := fun b hb => by
      rw [PageAllocator.taken, if_neg (hb false), if_neg (hb true)]
    rw [hnone a' fun user' => hrange user' ▸ hout user', hnone a hout, if_neg]
    rintro ⟨h1, h2⟩
    change pgNo (a.pool user).base + pageIdx ≤ page at h1
    change page < pgNo (a.pool user).base + pageIdx + pageCnt at h2
    refine hout user ⟨?_, ?_⟩
    · show pgNo (a.pool user).base ≤ page
      omega
    · show page < pgNo (a.pool user).base + (a.pool user).usedMap.bitCnt
      omega

end Change

/-! ## The invariant -/

/-- The pools lie as they did, the allocations lie in their pools, and the bitmaps mark them. -/
structure PallocInv (M : Memory) (userPageLimit : Nat) (st : PallocState) : Prop where
  lie : PoolsLie M userPageLimit st.allocator
  /-- The bitmaps mark the allocations. -/
  marks : Marks st.live Allocation.range st.allocator.taken
  aligned : ∀ x ∈ st.live, pgOfs x.pages = 0
  pos : ∀ x ∈ st.live, 0 < x.pageCnt
  low : ∀ x ∈ st.live, pgNo (st.allocator.pool x.user).base ≤ pgNo x.pages
  high : ∀ x ∈ st.live, pgNo x.pages + x.pageCnt
    ≤ pgNo (st.allocator.pool x.user).base + (st.allocator.pool x.user).usedMap.bitCnt

namespace PallocInv

variable {M : Memory} {userPageLimit : Nat} {st st' : PallocState}

theorem of_start (h : PallocStart M userPageLimit st) : PallocInv M userPageLimit st := by
  obtain ⟨hinit, hlive⟩ := h
  obtain ⟨hlie, hclear⟩ := poolsLie_init hinit
  have htaken : ∀ page, st.allocator.taken page = false := by
    intro page
    simp only [PageAllocator.taken, PageAllocator.pageBit, hclear, ite_self]
  refine ⟨hlie, ?_, ?_, ?_, ?_, ?_⟩ <;> rw [hlive]
  · exact (marks_nil _).congr htaken
  all_goals nofun

section

variable (h : PallocInv M userPageLimit st) {x : Allocation}
include h

theorem setMap (user : Bool) (usedMap : Bitmap) {live : List Allocation}
    (hcnt : usedMap.bitCnt = (st.allocator.pool user).usedMap.bitCnt)
    (hmarks : Marks live Allocation.range (st.allocator.setMap user usedMap).taken)
    (hlive : ∀ x ∈ live, pgOfs x.pages = 0 ∧ 0 < x.pageCnt ∧
      pgNo (st.allocator.pool x.user).base ≤ pgNo x.pages ∧ pgNo x.pages + x.pageCnt
        ≤ pgNo (st.allocator.pool x.user).base + (st.allocator.pool x.user).usedMap.bitCnt) :
    PallocInv M userPageLimit ⟨st.allocator.setMap user usedMap, live⟩ where
  lie := h.lie.setMap hcnt
  marks := hmarks
  aligned x hx := (hlive x hx).1
  pos x hx := (hlive x hx).2.1
  low x hx := by
    rw [st.allocator.base_setMap]
    exact (hlive x hx).2.2.1
  high x hx := by
    rw [st.allocator.base_setMap, st.allocator.bitCnt_setMap x.user hcnt]
    exact (hlive x hx).2.2.2

theorem base_ne_zero (user : Bool) : (st.allocator.pool user).base ≠ 0 := by
  have hlow := h.lie.low
  have hstart := h.lie.start user
  have hpool : M.poolStart userPageLimit false ≤ M.poolStart userPageLimit user := by
    cases user
    · exact le_rfl
    · exact Nat.le_add_right _ _
  simp only [physBase] at hlow
  omega

/-- **A request**: it gets a run of free pages, or there is none. -/
theorem get (flags : PallocFlags) {pageCnt : Nat} (hpos : 0 < pageCnt) :
    (pallocGetMultiple flags pageCnt st.allocator
        = (if flags.assert then none else some (0, st.allocator)) ∧
      ∀ idx, idx + pageCnt ≤ (st.allocator.pool flags.user).usedMap.bitCnt →
        ∃ i < pageCnt, (st.allocator.pool flags.user).usedMap.bits (idx + i) = true) ∨
    ∃ pages a', pallocGetMultiple flags pageCnt st.allocator = some (pages, a') ∧ pages ≠ 0 ∧
      PallocInv M userPageLimit ⟨a', ⟨pages, pageCnt, flags.user⟩ :: st.live⟩ := by
  have hbase := h.base_ne_zero flags.user
  have haligned := h.lie.aligned flags.user
  rw [pallocGetMultiple, if_neg hpos.ne']
  rcases hscan : (st.allocator.pool flags.user).usedMap.scan 0 pageCnt false with _ | pageIdx
  · refine .inl ⟨?_, fun idx hidx => ?_⟩
    · simp only [Bitmap.scanAndFlip, hscan, Option.map_none, true_and]
    · obtain ⟨i, hi, hbit⟩ := Bitmap.scan_eq_none hscan (Nat.zero_le idx) hidx
      exact ⟨i, hi, Bool.eq_true_of_not_eq_false hbit⟩
  · obtain ⟨-, hle, hclear⟩ := Bitmap.scan_eq_some hscan
    have hne : (st.allocator.pool flags.user).base + pgSize * pageIdx ≠ 0 := by omega
    have hno : pgNo ((st.allocator.pool flags.user).base + pgSize * pageIdx)
        = pgNo (st.allocator.pool flags.user).base + pageIdx := by
      simp only [pgNo, pgSize] at haligned ⊢
      omega
    refine .inr ⟨_, _, ?_, hne, h.setMap flags.user
      ((st.allocator.pool flags.user).usedMap.setMultiple pageIdx pageCnt true) rfl
      (h.marks.take (fun page hpage => ?_) fun page => ?_) fun x hx => ?_⟩
    · simp only [Bitmap.scanAndFlip, hscan]
      rw [if_neg fun hc => hne hc.1]
      rfl
    · obtain ⟨hp1, hp2⟩ := hpage
      change pgNo _ ≤ page at hp1
      change page < pgNo _ + pageCnt at hp2
      rw [hno] at hp1 hp2
      have hpage : (st.allocator.poolRange flags.user).Has page :=
        PageAllocator.poolRange_has.mpr (by omega)
      rw [h.lie.taken_of_has hpage, PageAllocator.pageBit, ← hclear (page - pgNo
        (st.allocator.pool flags.user).base - pageIdx) (by omega)]
      congr 1
      omega
    · rw [h.lie.taken_setMultiple hle]
      refine if_congr ?_ rfl rfl
      rw [Allocation.range, hno]
    · rcases List.mem_cons.mp hx with rfl | hx
      · refine ⟨?_, hpos, ?_, ?_⟩
        · simp only [pgOfs, pgSize] at haligned ⊢
          omega
        · rw [hno]
          exact Nat.le_add_right _ _
        · dsimp only
          omega
      · exact ⟨h.aligned x hx, h.pos x hx, h.low x hx, h.high x hx⟩

theorem poolOf_eq (hx : x ∈ st.live) : poolOf st.allocator x.pages = some x.user := by
  have hlow := h.low x hx
  have hhigh := h.high x hx
  have hpos := h.pos x hx
  have hhas : (st.allocator.poolRange x.user).Has (pgNo x.pages) :=
    PageAllocator.poolRange_has.mpr (by omega)
  have hpage : ∀ user, pageFromPool (st.allocator.pool user) x.pages
      = decide ((st.allocator.poolRange user).Has (pgNo x.pages)) := fun user =>
    (Bool.decide_and _ _).symm
  have hkernel := hpage false
  have huser := hpage true
  change pageFromPool st.allocator.kernelPool x.pages = _ at hkernel
  change pageFromPool st.allocator.userPool x.pages = _ at huser
  rw [poolOf, hkernel, huser]
  cases hflag : x.user with
  | false => rw [hflag] at hhas; rw [decide_eq_true hhas, if_pos rfl]
  | true =>
    rw [hflag] at hhas
    rw [decide_eq_true hhas, decide_eq_false fun hk => h.lie.pool_apart _ hk hhas]
    rfl

/-- **A live allocation is freed**, into its pool. -/
theorem free (hx : x ∈ st.live) :
    ∃ a', pallocFreeMultiple x.pages x.pageCnt st.allocator = some a' ∧
      PallocInv M userPageLimit ⟨a', st.live.erase x⟩ := by
  have hlow := h.low x hx
  have hhigh := h.high x hx
  have hpos := h.pos x hx
  have haligned := h.aligned x hx
  have hbase := h.base_ne_zero x.user
  have hpages : x.pages ≠ 0 := by
    have hbasealigned := h.lie.aligned x.user
    simp only [pgNo, pgOfs, pgSize] at hlow hbasealigned
    omega
  have hle : pgNo x.pages - pgNo (st.allocator.pool x.user).base + x.pageCnt
      ≤ (st.allocator.pool x.user).usedMap.bitCnt := by omega
  have hrange : (⟨pgNo (st.allocator.pool x.user).base
      + (pgNo x.pages - pgNo (st.allocator.pool x.user).base), x.pageCnt⟩ : Range) = x.range := by
    rw [Nat.add_sub_cancel' hlow]
    rfl
  have hall : (st.allocator.pool x.user).usedMap.all
      (pgNo x.pages - pgNo (st.allocator.pool x.user).base) x.pageCnt = true := by
    refine Bitmap.all_eq_true.mpr fun i hi => ?_
    have hhas : (st.allocator.poolRange x.user).Has (pgNo x.pages + i) :=
      PageAllocator.poolRange_has.mpr (by omega)
    have htaken := (h.marks.iff (pgNo x.pages + i)).mpr
      ⟨x, hx, Nat.le_add_right _ _, Nat.add_lt_add_left hi _⟩
    rw [h.lie.taken_of_has hhas] at htaken
    rw [← htaken]
    congr 1
    omega
  refine ⟨_, ?_, h.setMap x.user ((st.allocator.pool x.user).usedMap.setMultiple
    (pgNo x.pages - pgNo (st.allocator.pool x.user).base) x.pageCnt false) rfl
    (h.marks.give hx fun page => ?_) fun y hy => ?_⟩
  · rw [pallocFreeMultiple, if_neg (by rw [haligned]; exact not_not.mpr rfl),
      if_neg (by omega), h.poolOf_eq hx]
    dsimp only
    rw [if_pos ⟨hle, hall⟩]
  · rw [h.lie.taken_setMultiple hle, hrange]
  · have hy := List.mem_of_mem_erase hy
    exact ⟨h.aligned y hy, h.pos y hy, h.low y hy, h.high y hy⟩

theorem step {call : PallocCall} {r : Nat} (hstep : pallocMachine.step st call = some (r, st')) :
    PallocInv M userPageLimit st' := by
  cases call with
  | get flags pageCnt =>
    simp only [pallocMachine, Option.map_eq_some_iff] at hstep
    obtain ⟨⟨pages, a'⟩, hget, heq⟩ := hstep
    cases heq
    rcases Nat.eq_zero_or_pos pageCnt with rfl | hpos
    · cases hget
      exact h
    · rcases h.get flags hpos with ⟨hfail, -⟩ | ⟨pages', a'', hsome, hne, hinv⟩
      · rw [hget] at hfail
        split at hfail
        · nomatch hfail
        · cases hfail
          exact h
      · rw [hget] at hsome
        cases hsome
        rw [if_neg hne]
        exact hinv
  | free x =>
    simp only [pallocMachine] at hstep
    split at hstep
    next hx =>
      obtain ⟨a', hfree, hinv⟩ := h.free hx
      rw [hfree] at hstep
      cases hstep
      exact hinv
    next => nomatch hstep

end

end PallocInv

/-! ## The result -/

/-- What the allocator promises. -/
structure PallocOk (M : Memory) (userPageLimit : Nat) (st : PallocState) : Prop where
  /-- Live allocations have no page in common. -/
  apart : st.live.Pairwise fun x y => x.range.Apart y.range
  /-- Each lies in the pool that `PAL_USER` selects, from its first page to the last. -/
  inside : ∀ x ∈ st.live, pgOfs x.pages = 0 ∧ (st.allocator.pool x.user).base ≤ x.pages ∧
    x.pages + x.pageCnt * pgSize ≤ (st.allocator.pool x.user).base
      + (st.allocator.pool x.user).usedMap.bitCnt * pgSize
  bounded : ∀ x ∈ st.live, x.pages + x.pageCnt * pgSize < 2 ^ 32
  /-- It is outside the pages of both bitmaps. -/
  outside : ∀ x ∈ st.live, ∀ user, x.pages + x.pageCnt * pgSize ≤ M.poolStart userPageLimit user ∨
    (st.allocator.pool user).base ≤ x.pages
  /-- The bits that are set are those of the pages of the pool's live allocations. -/
  marked : ∀ user, ∀ i < (st.allocator.pool user).usedMap.bitCnt,
    (st.allocator.pool user).usedMap.bits i = true ↔
      ∃ x ∈ st.live, x.user = user ∧ x.range.Has (pgNo (st.allocator.pool user).base + i)
  /-- `palloc_free_multiple` picks the pool that an allocation came from, and no assertion of it
  fails. -/
  frees : ∀ x ∈ st.live, poolOf st.allocator x.pages = some x.user ∧
    ∃ r, pallocMachine.step st (.free x) = some r
  /-- `palloc_get_multiple` returns a null pointer only if there is no run of free pages. -/
  null : ∀ flags pageCnt st', 0 < pageCnt →
    pallocMachine.step st (.get flags pageCnt) = some (0, st') →
      ∀ idx, idx + pageCnt ≤ (st.allocator.pool flags.user).usedMap.bitCnt →
        ∃ i < pageCnt, (st.allocator.pool flags.user).usedMap.bits (idx + i) = true

theorem PallocInv.ok {st : PallocState} (h : PallocInv M userPageLimit st) :
    PallocOk M userPageLimit st := by
  have hmiddle : (st.allocator.pool false).base + (st.allocator.pool false).usedMap.bitCnt * pgSize
      = M.poolStart userPageLimit true := h.lie.middle
  have hstart := h.lie.start
  have hinside : ∀ x ∈ st.live, pgOfs x.pages = 0 ∧ (st.allocator.pool x.user).base ≤ x.pages ∧
      x.pages + x.pageCnt * pgSize ≤ (st.allocator.pool x.user).base
        + (st.allocator.pool x.user).usedMap.bitCnt * pgSize := by
    intro x hx
    have hlow := h.low x hx
    have hhigh := h.high x hx
    have haligned := h.aligned x hx
    have hbase := h.lie.aligned x.user
    simp only [pgNo, pgOfs, pgSize] at *
    omega
  refine ⟨h.marks.apart, hinside, fun x hx => ?_, fun x hx user => ?_, fun user i hi => ?_,
    fun x hx => ⟨h.poolOf_eq hx, ?_⟩, fun flags pageCnt st' hpos hstep => ?_⟩
  · have hcap : M.ramPages ≤ 0x4000 := loaderRamPages_le _
    have hhigh : (st.allocator.pool true).base + (st.allocator.pool true).usedMap.bitCnt * pgSize
        ≤ physBase + M.ramPages * pgSize := h.lie.high
    have hstart := h.lie.start true
    obtain ⟨-, -, hx⟩ := hinside x hx
    rcases hflag : x.user with _ | _ <;> rw [hflag] at hx <;>
      simp only [pgSize, physBase] at * <;> omega
  · obtain ⟨-, hlow, hhigh⟩ := hinside x hx
    rcases hflag : x.user with _ | _ <;> rw [hflag] at hlow hhigh <;> cases user
    · exact .inr hlow
    · exact .inl (hmiddle ▸ hhigh)
    · refine .inr (Nat.le_trans ?_ (Nat.le_trans (hstart true) hlow))
      exact hmiddle ▸ Nat.le_add_right _ _
    · exact .inr hlow
  · have hhas : (st.allocator.poolRange user).Has (pgNo (st.allocator.pool user).base + i) :=
      ⟨Nat.le_add_right _ _, Nat.add_lt_add_left hi _⟩
    have hiff := h.marks.iff (pgNo (st.allocator.pool user).base + i)
    rw [h.lie.taken_of_has hhas, PageAllocator.pageBit, Nat.add_sub_cancel_left] at hiff
    rw [hiff]
    refine ⟨fun ⟨x, hx, hpage⟩ => ⟨x, hx, ?_, hpage⟩, fun ⟨x, hx, _, hpage⟩ => ⟨x, hx, hpage⟩⟩
    refine h.lie.pool_unique ⟨Nat.le_trans (h.low x hx) hpage.1, ?_⟩ hhas
    exact hpage.2.trans_le (h.high x hx)
  · obtain ⟨a', hfree, -⟩ := h.free hx
    refine ⟨(0, ⟨a', st.live.erase x⟩), ?_⟩
    simp only [pallocMachine]
    rw [if_pos hx, hfree]
    rfl
  · simp only [pallocMachine, Option.map_eq_some_iff] at hstep
    obtain ⟨⟨pages, a'⟩, hget, heq⟩ := hstep
    cases heq
    rcases h.get flags hpos with ⟨-, hrun⟩ | ⟨pages', a'', hsome, hne, -⟩
    · exact hrun
    · rw [hget] at hsome
      cases hsome
      exact absurd rfl hne

/-- **The page allocator never hands out a page twice.**  In every state that calls lead to, from
any memory and any limit on user pages with which `palloc_init` does not panic, the allocator keeps
its promises. -/
theorem palloc_ok {M : Memory} {userPageLimit : Nat} {st : PallocState}
    (h : pallocMachine.Reach (PallocStart M userPageLimit) (fun _ _ => True) st) :
    PallocOk M userPageLimit st := by
  refine PallocInv.ok ?_
  exact h.invariant (fun _ hst => .of_start hst)
    fun _ _ _ _ hinv _ hstep => hinv.step hstep

/-- A machine with 4 MB and a kernel of 1 MB. -/
def smallMemory : Memory where
  kernelEnd := physBase + 0x100000
  kbytes := 4096
  low := by decide
  high := by decide

/-- A page for the kernel and three for user programs, of which the first two are freed and one is
handed out again. -/
theorem palloc_ok_reused : ∃ st,
    pallocMachine.Reach (PallocStart smallMemory 1000) (fun _ _ => True) st ∧
      st.live = [⟨physBase + 0x281000, 1, true⟩, ⟨physBase + 0x283000, 1, true⟩,
        ⟨physBase + 0x101000, 1, false⟩] ∧ PallocOk smallMemory 1000 st := by
  have hrun : (pallocInit smallMemory 1000).any (fun a => (pallocMachine.run ⟨a, []⟩
      [.get ⟨false, false⟩ 1, .get ⟨true, false⟩ 2, .get ⟨true, true⟩ 1,
        .free ⟨physBase + 0x281000, 2, true⟩, .get ⟨true, false⟩ 1]).any fun r =>
          decide (r.2.live = [⟨physBase + 0x281000, 1, true⟩, ⟨physBase + 0x283000, 1, true⟩,
            ⟨physBase + 0x101000, 1, false⟩])) = true := by
    decide +kernel
  obtain ⟨a, hinit, hrun⟩ := (Option.any_eq_true ..).mp hrun
  obtain ⟨st, hreach, hlive⟩ := pallocMachine.exists_reach
    (I := PallocStart smallMemory 1000) ⟨hinit, rfl⟩ _
    (fun st => st.live = [⟨physBase + 0x281000, 1, true⟩, ⟨physBase + 0x283000, 1, true⟩,
      ⟨physBase + 0x101000, 1, false⟩]) hrun
  exact ⟨st, hreach, hlive, palloc_ok hreach⟩

end Pintos
