import Pintos.Vm.Loader

/-!
# The numbers of a segment

`validate_segment` accepts or refuses a program header, `load` computes from it how many bytes of
the segment are to be read and how many are to be zero, and the loop of `load_segment` cuts both
into pages.  All of it is unsigned arithmetic of 32 bits, but for the offset in the file, which is
signed.  `Vm/Loader.lean` has the loop over naturals; here it runs on the machine's integers, with
both counters, until both are 0.

* `segmentLoop` is the loop.  A `Round` is what it has in its variables in one round, and what it
  enters into the supplemental page table there.
* `segmentLoop_spec`: counters that add up to `cnt` pages give `cnt` rounds, in which neither falls
  below 0, and the numbers of the rounds.
* `SegmentFits` is what should hold of the rounds for a header, and `segment_fits` says that it does
  for every header that `validate_segment` accepts.
* `specs_eq_rounds`: the rounds are the pages for which `Vm/Loader.lean` runs its loop.
-/

namespace Pintos

open UInt32 (le_iff_toNat_le lt_iff_toNat_lt ofNat_toNat toNat_add toNat_inj
  toNat_mod toNat_sub_of_le)

/-! ## The loop -/

/-- A round of the loop of `load_segment`: its variables at the start of the round. -/
structure Round where
  curOfs : Int32
  upage : UInt32
  readBytes : UInt32
  zeroBytes : UInt32
deriving DecidableEq

namespace Round

/-- `page_read_bytes`. -/
def pageReadBytes (r : Round) : UInt32 := if r.readBytes < 4096 then r.readBytes else 4096

/-- `page_zero_bytes`. -/
def pageZeroBytes (r : Round) : UInt32 := 4096 - r.pageReadBytes

/-- The variables after the round. -/
def advance (r : Round) : Round where
  curOfs := r.curOfs + 4096
  upage := r.upage + 4096
  readBytes := r.readBytes - r.pageReadBytes
  zeroBytes := r.zeroBytes - r.pageZeroBytes

end Round

/-- The loop of `load_segment`, of at most so many rounds, from the variables that it starts
with. -/
def segmentLoop : Nat → Round → Option (List Round)
  | 0, r => if r.readBytes > 0 ∨ r.zeroBytes > 0 then none else some []
  | fuel + 1, r =>
    if r.readBytes > 0 ∨ r.zeroBytes > 0 then (segmentLoop fuel r.advance).map (r :: ·) else some []

/-- `load_segment`, as `load` calls it for a program header. -/
def Phdr.rounds (fuel : Nat) (phdr : Phdr) : Option (List Round) :=
  if (phdr.readBytes + phdr.zeroBytes) % 4096 ≠ 0 ∨ phdr.memPage % 4096 ≠ 0 ∨
      phdr.filePage.toInt32 % 4096 ≠ 0 then none
  else segmentLoop fuel ⟨phdr.filePage.toInt32, phdr.memPage, phdr.readBytes, phdr.zeroBytes⟩

namespace Round

variable {r : Round} {cnt : Nat}

theorem toNat_pageReadBytes (r : Round) : r.pageReadBytes.toNat = min r.readBytes.toNat 4096 := by
  rw [pageReadBytes]
  split
  next hlt =>
    have hlt : r.readBytes.toNat < 4096 := hlt
    rw [Nat.min_eq_left hlt.le]
  next hle =>
    have hle : ¬ r.readBytes.toNat < 4096 := hle
    rw [Nat.min_eq_right (Nat.not_lt.mp hle)]
    rfl

theorem toNat_pageZeroBytes (r : Round) :
    r.pageZeroBytes.toNat = 4096 - min r.readBytes.toNat 4096 := by
  have hread := r.toNat_pageReadBytes
  rw [pageZeroBytes, toNat_sub_of_le, hread]
  · rfl
  · rw [le_iff_toNat_le, hread]
    exact Nat.min_le_right _ _

/-- The counters add up to so many pages, and so many pages are left behind `upage`. -/
structure Covers (r : Round) (cnt : Nat) : Prop where
  total : r.readBytes.toNat + r.zeroBytes.toNat = cnt * 4096
  room : r.upage.toNat + cnt * 4096 < 2 ^ 32

theorem Covers.counters (h : r.Covers (cnt + 1)) :
    r.pageReadBytes ≤ r.readBytes ∧ r.pageZeroBytes ≤ r.zeroBytes := by
  have htotal := h.total
  rw [le_iff_toNat_le, le_iff_toNat_le, toNat_pageReadBytes, toNat_pageZeroBytes]
  omega

theorem Covers.toNat_advance (h : r.Covers (cnt + 1)) :
    r.advance.upage.toNat = r.upage.toNat + 4096 ∧
      r.advance.readBytes.toNat = r.readBytes.toNat - 4096 ∧
      r.advance.zeroBytes.toNat = r.zeroBytes.toNat - (4096 - min r.readBytes.toNat 4096) := by
  obtain ⟨hread, hzero⟩ := h.counters
  have hroom := h.room
  refine ⟨?_, ?_, ?_⟩
  · rw [advance, toNat_add, show (4096 : UInt32).toNat = 4096 from rfl]
    omega
  · rw [advance, toNat_sub_of_le _ _ hread, toNat_pageReadBytes]
    omega
  · rw [advance, toNat_sub_of_le _ _ hzero, toNat_pageZeroBytes]

theorem Covers.advance (h : r.Covers (cnt + 1)) : r.advance.Covers cnt := by
  obtain ⟨hupage, hread, hzero⟩ := h.toNat_advance
  have htotal := h.total
  have hroom := h.room
  refine ⟨?_, ?_⟩
  · omega
  · omega

theorem toInt_advance_curOfs (hnonneg : 0 ≤ r.curOfs.toInt)
    (hlt : r.curOfs.toInt + 4096 < 2 ^ 31) : r.advance.curOfs.toInt = r.curOfs.toInt + 4096 := by
  rw [Round.advance, Int32.toInt_add, show (4096 : Int32).toInt = 4096 from rfl]
  exact Int.bmod_eq_of_le (by omega) (by omega)

/-- The round `k` after `r`. -/
structure At (r : Round) (k : Nat) (r' : Round) : Prop where
  upage : r'.upage.toNat = r.upage.toNat + k * 4096
  readBytes : r'.readBytes.toNat = r.readBytes.toNat - k * 4096
  counters : r'.pageReadBytes ≤ r'.readBytes ∧ r'.pageZeroBytes ≤ r'.zeroBytes
  curOfs : 0 ≤ r.curOfs.toInt → r.curOfs.toInt + k * 4096 < 2 ^ 31 →
    r'.curOfs.toInt = r.curOfs.toInt + k * 4096

theorem Covers.at_zero (h : r.Covers (cnt + 1)) : r.At 0 r :=
  ⟨by omega, by omega, h.counters, fun _ _ => by omega⟩

theorem At.succ {k : Nat} {r' : Round} (h : r.Covers (cnt + 1)) (hat : r.advance.At k r') :
    r.At (k + 1) r' := by
  obtain ⟨hupage, hread, -⟩ := h.toNat_advance
  refine ⟨?_, ?_, hat.counters, fun hnonneg hlt => ?_⟩
  · rw [hat.upage]
    omega
  · rw [hat.readBytes]
    omega
  · have hstep := toInt_advance_curOfs hnonneg (by omega)
    rw [hat.curOfs (by omega) (by omega)]
    omega

end Round

variable {cnt : Nat} {r : Round} {ofs upage : Nat}

/-- **The loop of `load_segment`.**  Counters that add up to `cnt` pages give `cnt` rounds. -/
theorem segmentLoop_spec (h : r.Covers cnt) :
    ∃ rounds : List Round, rounds.length = cnt ∧
      (∀ fuel, cnt ≤ fuel → segmentLoop fuel r = some rounds) ∧
      ∀ k (hk : k < rounds.length), r.At k rounds[k] := by
  induction cnt generalizing r with
  | zero =>
    have htotal := h.total
    have hstop : ¬ (r.readBytes > 0 ∨ r.zeroBytes > 0) := by
      rw [gt_iff_lt, gt_iff_lt, lt_iff_toNat_lt, lt_iff_toNat_lt]
      omega
    refine ⟨[], rfl, fun fuel _ => ?_, nofun⟩
    cases fuel <;> exact if_neg hstop
  | succ cnt ih =>
    have htotal := h.total
    have hgo : r.readBytes > 0 ∨ r.zeroBytes > 0 := by
      rw [gt_iff_lt, gt_iff_lt, lt_iff_toNat_lt, lt_iff_toNat_lt,
        show (0 : UInt32).toNat = 0 from rfl]
      omega
    obtain ⟨rounds, hlen, hloop, hat⟩ := ih h.advance
    refine ⟨r :: rounds, by rw [List.length_cons, hlen], fun fuel hfuel => ?_, fun k hk => ?_⟩
    · obtain ⟨fuel, rfl⟩ := Nat.exists_eq_succ_of_ne_zero (n := fuel) (by omega)
      rw [segmentLoop, if_pos hgo, hloop fuel (Nat.le_of_succ_le_succ hfuel), Option.map_some]
    · cases k with
      | zero => exact h.at_zero
      | succ k =>
        exact (hat k (Nat.lt_of_succ_lt_succ hk)).succ h

/-! ## The rounds for a program header -/

/-- **A segment fits.**  What should hold of the numbers that `load` computes for a program header,
and of the rounds that `load_segment` makes, with a file of this length.  The byte `i` of the
segment is in the page of the address `p_vaddr + i`, at the index that is its remainder. -/
structure SegmentFits (length : Nat) (phdr : Phdr) (rounds : List Round) : Prop where
  /-- The end of the segment does not wrap around. -/
  vaddr : (phdr.pVaddr + phdr.pMemsz).toNat = phdr.pVaddr.toNat + phdr.pMemsz.toNat
  /-- Nor does the end of its bytes in the file, from the start of its first page on. -/
  filesz : (phdr.pageOffset + phdr.pFilesz).toNat = phdr.pageOffset.toNat + phdr.pFilesz.toNat
  /-- Nor does its end, from there on, nor the sum from which it is rounded up. -/
  memsz : (phdr.pageOffset + phdr.pMemsz + 4096 - 1).toNat =
    phdr.pageOffset.toNat + phdr.pMemsz.toNat + 4095
  rounded : (roundUp (phdr.pageOffset + phdr.pMemsz)).toNat =
    (phdr.pageOffset.toNat + phdr.pMemsz.toNat + 4095) / 4096 * 4096
  /-- The bytes to read are not more than those of the pages. -/
  zeroBytes : phdr.readBytes ≤ roundUp (phdr.pageOffset + phdr.pMemsz)
  /-- The bytes to read and those to zero are whole pages, and there is at least one. -/
  total : (phdr.readBytes + phdr.zeroBytes).toNat =
    phdr.readBytes.toNat + phdr.zeroBytes.toNat
  positive : 0 < phdr.readBytes.toNat + phdr.zeroBytes.toNat
  multiple : 4096 ∣ phdr.readBytes.toNat + phdr.zeroBytes.toNat
  /-- There is a round for each page. -/
  count : rounds.length = (phdr.readBytes.toNat + phdr.zeroBytes.toNat) / 4096
  counters : ∀ r ∈ rounds, r.pageReadBytes ≤ r.readBytes ∧ r.pageZeroBytes ≤ r.zeroBytes
  upage : ∀ r ∈ rounds, (r.upage + 4096).toNat = r.upage.toNat + 4096
  /-- The pages are those that meet the segment, each once. -/
  pages : ∀ page, (∃ r ∈ rounds, r.upage.toNat = page * 4096) ↔
    ∃ a, phdr.pVaddr.toNat ≤ a ∧ a < phdr.pVaddr.toNat + phdr.pMemsz.toNat ∧ a / 4096 = page
  once : (rounds.map Round.upage).Nodup
  /-- They are user pages, and not the first one. -/
  user : ∀ r ∈ rounds, r.upage.toNat % 4096 = 0 ∧ r.upage.toNat ≠ 0 ∧
    r.upage.toNat < 0xc0000000
  /-- A byte of the segment that is in the file is read from its place there. -/
  inFile : ∀ i < phdr.pFilesz.toNat, phdr.pOffset.toNat + i < length → ∃ r ∈ rounds,
    r.upage.toNat = (phdr.pVaddr.toNat + i) / 4096 * 4096 ∧
    (phdr.pVaddr.toNat + i) % 4096 < r.pageReadBytes.toNat ∧
    r.curOfs.toInt + ((phdr.pVaddr.toNat + i) % 4096 : Nat) = phdr.pOffset.toNat + i
  /-- A byte that is not one of those in the file is one of those to zero. -/
  zero : ∀ i, phdr.pFilesz.toNat ≤ i → i < phdr.pMemsz.toNat → ∃ r ∈ rounds,
    r.upage.toNat = (phdr.pVaddr.toNat + i) / 4096 * 4096 ∧
    r.pageReadBytes.toNat ≤ (phdr.pVaddr.toNat + i) % 4096 ∧
    (phdr.pVaddr.toNat + i) % 4096 < r.pageReadBytes.toNat + r.pageZeroBytes.toNat

/-- The variables with which `load_segment` starts. -/
def Phdr.firstRound (phdr : Phdr) : Round :=
  ⟨phdr.filePage.toInt32, phdr.memPage, phdr.readBytes, phdr.zeroBytes⟩

namespace Phdr

variable {phdr : Phdr} {length : Nat}

theorem bounds_of_validateSegment (hlen : length < 2 ^ 31)
    (h : validateSegment length phdr = true) :
    phdr.pOffset.toNat ≤ length ∧ 4096 ≤ phdr.pVaddr.toNat := by
  simp only [validateSegment, Bool.if_false_left, Bool.and_eq_true, Bool.not_eq_true',
    decide_eq_false_iff_not] at h
  obtain ⟨-, hofs, -, -, -, -, -, hpage, -⟩ := h
  have hlength : (UInt32.ofNat length).toNat = length :=
    UInt32.toNat_ofNat_of_lt' (hlen.trans (by decide))
  rw [gt_iff_lt, lt_iff_toNat_lt, not_lt, hlength] at hofs
  rw [lt_iff_toNat_lt, not_lt] at hpage
  exact ⟨hofs, hpage⟩

theorem toNat_pageOffset (phdr : Phdr) : phdr.pageOffset.toNat = phdr.pVaddr.toNat % 4096 :=
  toNat_and_pgmask _

theorem Valid.readBytes_le (h : phdr.Valid) :
    phdr.readBytes ≤ roundUp (phdr.pageOffset + phdr.pMemsz) := by
  rw [le_iff_toNat_le, h.toNat_readBytes, h.toNat_roundUp]
  exact h.bytesInFile_le

theorem Valid.sum_toNat (h : phdr.Valid) :
    phdr.readBytes.toNat + phdr.zeroBytes.toNat = phdr.pageCnt * pgsize := by
  have hround := h.toNat_roundUp
  have hread := h.toNat_readBytes
  have hle := h.bytesInFile_le
  rw [zeroBytes]
  split
  next =>
    rw [toNat_sub_of_le _ _ h.readBytes_le, hround, hread]
    exact Nat.add_sub_cancel' hle
  next hzero =>
    rw [hround, readBytes, if_neg hzero]
    exact Nat.zero_add _

theorem Valid.covers (h : phdr.Valid) : phdr.firstRound.Covers phdr.pageCnt := by
  refine ⟨h.sum_toNat, ?_⟩
  have huser := h.user
  rw [firstRound, toNat_memPage, pageCnt, firstPage]
  unfold physBase pgsize at *
  omega

theorem toInt_filePage (hofs : phdr.pOffset.toNat < 2 ^ 31) :
    phdr.filePage.toInt32.toInt = (phdr.pOffset.toNat / pgsize * pgsize : Nat) := by
  have hnat : phdr.filePage.toBitVec.toNat = _ := toNat_filePage phdr
  have hlt : 2 * phdr.filePage.toBitVec.toNat < 2 ^ 32 := by
    rw [hnat]
    unfold pgsize
    omega
  rw [← hnat]
  exact BitVec.toInt_eq_toNat_of_lt hlt

theorem Valid.rounds_eq (h : phdr.Valid) (hofs : phdr.pOffset.toNat < 2 ^ 31) (fuel : Nat) :
    phdr.rounds fuel = segmentLoop fuel phdr.firstRound := by
  refine if_neg ?_
  rw [not_or, not_or, not_not, not_not, not_not]
  refine ⟨?_, ?_, ?_⟩
  · rw [← toNat_inj, toNat_mod, h.toNat_total]
    exact Nat.mul_mod_left _ _
  · rw [← toNat_inj, toNat_mod, toNat_memPage]
    exact Nat.mul_mod_left _ _
  · rw [← Int32.toInt_inj, Int32.toInt_mod, toInt_filePage hofs,
      show (4096 : Int32).toInt = 4096 from rfl, Nat.cast_mul]
    exact Int.mul_tmod_left _ _

variable {k : Nat} {r : Round}

theorem at_toNat (hat : phdr.firstRound.At k r) :
    r.upage.toNat = (phdr.pVaddr.toNat / 4096 + k) * 4096 := by
  have hupage : r.upage.toNat = phdr.memPage.toNat + k * 4096 := hat.upage
  rw [hupage, toNat_memPage, Nat.add_mul, firstPage]

theorem Valid.at_pageReadBytes (h : phdr.Valid) (hat : phdr.firstRound.At k r) :
    r.pageReadBytes.toNat = min (phdr.bytesInFile - k * 4096) 4096 := by
  have hread : phdr.firstRound.readBytes.toNat = _ := h.toNat_readBytes
  rw [Round.toNat_pageReadBytes, hat.readBytes, hread]

end Phdr

/-- The rounds are those for the pages of the segment, in their order. -/
structure RoundsOf (phdr : Phdr) (rounds : List Round) : Prop where
  length : rounds.length = phdr.pageCnt
  rounds : ∀ k (hk : k < rounds.length), phdr.firstRound.At k rounds[k]

namespace RoundsOf

variable {phdr : Phdr} {rounds : List Round}

section

variable (h : RoundsOf phdr rounds) {i : Nat}
include h

theorem of_mem {r : Round} (hr : r ∈ rounds) : ∃ k < phdr.pageCnt, phdr.firstRound.At k r := by
  obtain ⟨k, hk, rfl⟩ := List.mem_iff_getElem.mp hr
  exact ⟨k, h.length ▸ hk, h.rounds k hk⟩

theorem exists_mem {k : Nat} (hk : k < phdr.pageCnt) : ∃ r ∈ rounds, phdr.firstRound.At k r :=
  have hlt : k < rounds.length := h.length.symm ▸ hk
  ⟨rounds[k], List.getElem_mem hlt, h.rounds k hlt⟩

theorem exists_of_byte (hi : i < phdr.pMemsz.toNat) :
    ∃ r ∈ rounds, ∃ k, phdr.firstRound.At k r ∧
      r.upage.toNat = (phdr.pVaddr.toNat + i) / 4096 * 4096 ∧
      phdr.pVaddr.toNat % 4096 + i = k * 4096 + (phdr.pVaddr.toNat + i) % 4096 := by
  have hk : (phdr.pVaddr.toNat + i) / 4096 - phdr.pVaddr.toNat / 4096 < phdr.pageCnt := by
    rw [Phdr.pageCnt]
    unfold pgsize
    omega
  obtain ⟨r, hr, hat⟩ := h.exists_mem hk
  refine ⟨r, hr, _, hat, ?_, ?_⟩
  · rw [Phdr.at_toNat hat]
    omega
  · omega

theorem pages (hv : phdr.Valid) (page : Nat) :
    (∃ r ∈ rounds, r.upage.toNat = page * 4096) ↔ ∃ a, phdr.pVaddr.toNat ≤ a ∧
      a < phdr.pVaddr.toNat + phdr.pMemsz.toNat ∧ a / 4096 = page := by
  constructor
  · rintro ⟨r, hr, hpage⟩
    obtain ⟨k, hk, hat⟩ := h.of_mem hr
    rw [Phdr.at_toNat hat] at hpage
    have hmem := hv.memsz
    rw [Phdr.pageCnt] at hk
    unfold pgsize at hk
    -- The first byte of the page, or that of the segment.
    exact ⟨max phdr.pVaddr.toNat (page * 4096), by omega, by omega, by omega⟩
  · rintro ⟨a, hle, hlt, hpage⟩
    obtain ⟨r, hr, k, -, hupage, -⟩ := h.exists_of_byte (i := a - phdr.pVaddr.toNat) (by omega)
    refine ⟨r, hr, hupage.trans ?_⟩
    rw [Nat.add_sub_cancel' hle, hpage]

theorem nodup : (rounds.map Round.upage).Nodup := by
  refine List.pairwise_map.mpr (List.pairwise_iff_getElem.mpr fun i j hi hj hij heq => ?_)
  have hi' := Phdr.at_toNat (h.rounds i hi)
  have hj' := Phdr.at_toNat (h.rounds j hj)
  rw [heq] at hi'
  omega

theorem user (hv : phdr.Valid) (hpage : 4096 ≤ phdr.pVaddr.toNat) :
    ∀ r ∈ rounds, r.upage.toNat % 4096 = 0 ∧ r.upage.toNat ≠ 0 ∧
      r.upage.toNat < 0xc0000000 := by
  intro r hr
  obtain ⟨k, hk, hat⟩ := h.of_mem hr
  have hlast := hv.lastPage
  rw [Phdr.at_toNat hat]
  rw [Phdr.firstPage] at hlast
  unfold physBase pgsize at hlast
  omega

theorem inFile (hv : phdr.Valid) {length : Nat} (hlen : length < 2 ^ 31)
    (hofs : phdr.pOffset.toNat ≤ length) (hi : i < phdr.pFilesz.toNat)
    (hin : phdr.pOffset.toNat + i < length) : ∃ r ∈ rounds,
      r.upage.toNat = (phdr.pVaddr.toNat + i) / 4096 * 4096 ∧
      (phdr.pVaddr.toNat + i) % 4096 < r.pageReadBytes.toNat ∧
      r.curOfs.toInt + ((phdr.pVaddr.toNat + i) % 4096 : Nat) = phdr.pOffset.toNat + i := by
  obtain ⟨r, hr, k, hat, hupage, hbyte⟩ := h.exists_of_byte (hi.trans_le hv.filesz)
  have hoffset : phdr.pOffset.toNat < 2 ^ 31 := by omega
  have hstart := Phdr.toInt_filePage hoffset
  have hsame := hv.sameOffset
  have hcur := hat.curOfs
  rw [show phdr.firstRound.curOfs.toInt = _ from hstart] at hcur
  unfold pgsize at hsame hcur
  refine ⟨r, hr, hupage, ?_, ?_⟩
  · rw [hv.at_pageReadBytes hat, Phdr.bytesInFile, if_neg (by omega)]
    unfold pgsize
    omega
  · omega

theorem zero (hv : phdr.Valid) (hle : phdr.pFilesz.toNat ≤ i)
    (hi : i < phdr.pMemsz.toNat) : ∃ r ∈ rounds,
      r.upage.toNat = (phdr.pVaddr.toNat + i) / 4096 * 4096 ∧
      r.pageReadBytes.toNat ≤ (phdr.pVaddr.toNat + i) % 4096 ∧
      (phdr.pVaddr.toNat + i) % 4096 < r.pageReadBytes.toNat + r.pageZeroBytes.toNat := by
  obtain ⟨r, hr, k, hat, hupage, hbyte⟩ := h.exists_of_byte hi
  refine ⟨r, hr, hupage, ?_, ?_⟩
  · rw [hv.at_pageReadBytes hat, Phdr.bytesInFile]
    unfold pgsize
    split <;> omega
  · rw [Round.toNat_pageZeroBytes, Round.toNat_pageReadBytes]
    omega

end

end RoundsOf

/-- **Accepted segments load into user space only.**  For every program header that
`validate_segment` accepts, for a file of any length, the loop of `load_segment` ends after as many
rounds as there are pages, and the numbers of the rounds are right. -/
theorem segment_fits {length : Nat} {phdr : Phdr} (hlen : length < 2 ^ 31)
    (h : validateSegment length phdr = true) : ∃ rounds,
      (∀ fuel, rounds.length ≤ fuel → phdr.rounds fuel = some rounds) ∧
      SegmentFits length phdr rounds := by
  have hv := Phdr.valid_of_validateSegment h
  obtain ⟨hofs, hpage⟩ := Phdr.bounds_of_validateSegment hlen h
  obtain ⟨rounds, hcnt, hloop, hat⟩ := segmentLoop_spec hv.covers
  have hrounds : RoundsOf phdr rounds := ⟨hcnt, hat⟩
  have huser := hrounds.user hv hpage
  have hsum := hv.sum_toNat
  have hpos : 0 < phdr.pageCnt := by
    have hmem := hv.memsz
    rw [Phdr.pageCnt]
    unfold pgsize
    omega
  have hend := hv.user
  have hfilesz := hv.filesz
  have hoffset := phdr.toNat_pageOffset
  unfold physBase pgsize at *
  refine ⟨rounds, fun fuel hfuel => ?_, ?_, ?_, ?_, ?_, hv.readBytes_le, ?_, ?_, ?_, ?_, ?_, ?_,
    hrounds.pages hv, hrounds.nodup, huser, fun i hi => hrounds.inFile hv hlen hofs hi,
    fun i => hrounds.zero hv⟩
  · rw [hv.rounds_eq (by omega)]
    exact hloop fuel (hcnt ▸ hfuel)
  · rw [toNat_add]
    omega
  · rw [toNat_add]
    omega
  · have hsum : (phdr.pageOffset + phdr.pMemsz + 4096).toNat =
        phdr.pageOffset.toNat + phdr.pMemsz.toNat + 4096 := by
      rw [toNat_add, toNat_add, show (4096 : UInt32).toNat = 4096 from rfl]
      omega
    rw [toNat_sub_of_le, hsum, show (1 : UInt32).toNat = 1 from rfl]
    · omega
    · rw [le_iff_toNat_le, hsum, show (1 : UInt32).toNat = 1 from rfl]
      omega
  · rw [hv.toNat_roundUp, hoffset, Phdr.pageCnt]
    unfold pgsize
    omega
  · rw [hv.toNat_total, hsum]
  · omega
  · rw [hsum]
    exact Nat.dvd_mul_left _ _
  · rw [hsum, hcnt, Nat.mul_div_cancel _ (by decide)]
  · intro r hr
    obtain ⟨k, -, hat⟩ := hrounds.of_mem hr
    exact hat.counters
  · intro r hr
    have hlt := (huser r hr).2.2
    rw [toNat_add, show (4096 : UInt32).toNat = 4096 from rfl]
    omega

/-- A segment that starts in the middle of a page, with its data in the file and twice as much in
memory. -/
theorem segment_fits_data : ∃ rounds,
    (Phdr.mk ptLoad 0x1054 0x8049054 0x1000 0x2000 6).rounds 3 = some rounds ∧
      SegmentFits 0x3000 ⟨ptLoad, 0x1054, 0x8049054, 0x1000, 0x2000, 6⟩ rounds := by
  have hlen : 0x3000 < 2 ^ 31 := by decide
  have hvalid : validateSegment 0x3000 ⟨ptLoad, 0x1054, 0x8049054, 0x1000, 0x2000, 6⟩ = true := by
    decide
  obtain ⟨rounds, hrounds, hfits⟩ := segment_fits hlen hvalid
  refine ⟨rounds, hrounds 3 ?_, hfits⟩
  rw [hfits.count]
  decide

/-! ## The pages of the loop over naturals -/

/-- The numbers of a page, as the round of the loop has them. -/
def Round.spec (r : Round) : UInt32 × Int32 × UInt32 := (r.upage, r.curOfs, r.pageReadBytes)

/-- The numbers of a page, as those of 32 bits. -/
def PageSpec.words (p : PageSpec) : UInt32 × Int32 × UInt32 :=
  (.ofNat (p.upage * 4096), .ofNat p.ofs, .ofNat p.readBytes)

theorem Round.words_spec (r : Round) (writable : Bool)
    (hofs : r.curOfs = .ofNat ofs) (hupage : r.upage.toNat = upage * 4096) :
    PageSpec.words ⟨upage, ofs, min r.readBytes.toNat pgsize, writable⟩ = r.spec := by
  rw [PageSpec.words, spec, ← hupage, ← hofs, ofNat_toNat]
  rw [← toNat_pageReadBytes, ofNat_toNat]

/-- **The two loops agree**, up to the limits of the machine's integers. -/
theorem words_pageSpecs (h : r.Covers cnt) (hofs : r.curOfs = .ofNat ofs)
    (hupage : r.upage.toNat = upage * 4096) (writable : Bool) {rounds : List Round}
    (hloop : segmentLoop cnt r = some rounds) :
    (pageSpecs writable cnt ofs upage r.readBytes.toNat).map PageSpec.words =
      rounds.map Round.spec := by
  induction cnt generalizing r ofs upage rounds with
  | zero =>
    rw [segmentLoop] at hloop
    split at hloop
    · cases hloop
    · cases hloop
      rfl
  | succ cnt ih =>
    obtain ⟨hup, hread, -⟩ := h.toNat_advance
    rw [segmentLoop] at hloop
    split at hloop
    next =>
      obtain ⟨rest, hrest, rfl⟩ := Option.map_eq_some_iff.mp hloop
      have hofs' : r.advance.curOfs = .ofNat (ofs + pgsize) := by
        rw [Round.advance, hofs, Int32.ofNat_add]
        rfl
      have hupage' : r.advance.upage.toNat = (upage + 1) * 4096 := by
        rw [hup, hupage, Nat.add_mul]
      have hrest' := ih h.advance hofs' hupage' hrest
      have hleft : r.readBytes.toNat - min r.readBytes.toNat pgsize =
          r.advance.readBytes.toNat := by
        unfold pgsize
        omega
      rw [pageSpecs, List.map_cons, List.map_cons, r.words_spec writable hofs hupage, hleft, hrest']
    next hstop =>
      have htotal := h.total
      rw [gt_iff_lt, gt_iff_lt, lt_iff_toNat_lt, lt_iff_toNat_lt,
        show (0 : UInt32).toNat = 0 from rfl] at hstop
      omega

theorem specs_eq_rounds {length : Nat} {phdr : Phdr} (hlen : length < 2 ^ 31)
    (hload : phdr.pType = ptLoad) (h : validateSegment length phdr = true) {rounds : List Round}
    (hrounds : phdr.rounds phdr.pageCnt = some rounds) :
    phdr.specs.map PageSpec.words = rounds.map Round.spec := by
  have hv := Phdr.valid_of_validateSegment h
  have hofs := (Phdr.bounds_of_validateSegment hlen h).1
  rw [hv.rounds_eq (by omega)] at hrounds
  have hread : phdr.firstRound.readBytes.toNat = phdr.bytesInFile := hv.toNat_readBytes
  have hstart : phdr.firstRound.curOfs = .ofNat (phdr.pOffset.toNat / pgsize * pgsize) := by
    rw [← phdr.toNat_filePage, Phdr.firstRound, ← Int32.toBitVec_inj]
    simp
  rw [Phdr.specs, if_pos hload, ← hread]
  exact words_pageSpecs hv.covers hstart phdr.toNat_memPage phdr.writable hrounds

theorem specs_eq_rounds_data : ∃ rounds,
    (Phdr.mk ptLoad 0x1054 0x8049054 0x1000 0x2000 6).rounds 3 = some rounds ∧
      (Phdr.mk ptLoad 0x1054 0x8049054 0x1000 0x2000 6).specs.map PageSpec.words
        = rounds.map Round.spec := by
  have hsome : ((Phdr.mk ptLoad 0x1054 0x8049054 0x1000 0x2000 6).rounds 3).isSome := by decide
  obtain ⟨rounds, hrounds⟩ := Option.isSome_iff_exists.mp hsome
  exact ⟨rounds, hrounds, specs_eq_rounds (by decide : 0x3000 < 2 ^ 31) rfl (by decide) hrounds⟩

end Pintos
