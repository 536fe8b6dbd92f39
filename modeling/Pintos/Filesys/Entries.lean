import Pintos.Filesys.Directory
import Pintos.Filesys.Files
import Pintos.Lib.Table

/-!
# The entries of a directory

What `lookup`, `dir_add`, `dir_remove` and `dir_readdir` do, for a directory whose entries are those
that `dir_add` writes: twenty bytes, with a null byte in the name of each that is in use.

Such a directory is a table of slots (`Lib/Table.lean`), with names for keys and the sectors of
inodes for values: `slots` takes each entry apart.  The routines read and write the entries one by
one, by `inode_read_at` and `inode_write_at`, and the table changes by one slot at a time.

* `FsInv.exec_lookup_slots`: `lookup` finds what the table has.
* `FsInv.exec_dirAdd`, `FsInv.exec_dirRemove`: the two store one slot, and leave everything else.
* `FsInv.exec_readdirLoop`: `dir_readdir` gives the next name.
-/

namespace Pintos

open Bytes Prog CString

/-! ## One entry -/

variable {name bytes : List UInt8}

theorem strEq_eq (hname : 0 ∉ name) (hbytes : 0 ∈ bytes) :
    strEq name bytes = some (decide (bytes.takeWhile (· ≠ 0) = name)) := by
  induction bytes generalizing name with
  | nil => exact absurd hbytes List.not_mem_nil
  | cons b bytes ih =>
    cases name with
    | nil =>
      rw [strEq]
      by_cases hb : b = 0 <;> simp [hb]
    | cons c name =>
      rw [List.mem_cons, not_or] at hname
      rw [strEq, List.takeWhile_cons]
      by_cases hcb : c = b
      · subst hcb
        have hmem : 0 ∈ bytes := (List.mem_cons.mp hbytes).resolve_left hname.1
        rw [if_pos rfl, if_pos (by simpa using Ne.symm hname.1), ih hname.2 hmem]
        simp
      · rw [if_neg hcb]
        by_cases hb : b = 0
        · simp [hb]
        · simp [hb, Ne.symm hcb]

theorem length_takeWhile_lt {k : Nat} (h : 0 ∈ bytes.take k) :
    (bytes.takeWhile (· ≠ 0)).length < k := by
  induction bytes generalizing k with
  | nil =>
    rw [List.take_nil] at h
    exact absurd h List.not_mem_nil
  | cons b bytes ih =>
    cases k with
    | zero => exact absurd h List.not_mem_nil
    | succ k =>
      rw [List.take_succ_cons, List.mem_cons] at h
      rw [List.takeWhile_cons]
      split
      next hb =>
        have hne : b ≠ 0 := by simpa using hb
        exact Nat.succ_lt_succ (ih (h.resolve_left hne.symm))
      next => exact Nat.succ_pos k

namespace DirEntry

/-- The name in an entry. -/
def nameOf (e : List UInt8) : List UInt8 := (e.drop 4).takeWhile (· ≠ 0)

/-- An entry as a slot of a table. -/
def slot (e : List UInt8) : Option (List UInt8 × Nat) :=
  if inUse e then some (nameOf e, inodeSector e) else none

/-- An entry of twenty bytes, with an end to its name if it is in use. -/
def Ok (e : List UInt8) : Prop := e.length = dirEntrySize ∧ (inUse e → 0 ∈ (e.drop 4).take 15)

variable {e name : List UInt8}

theorem inodeSector_of_slot {s : Nat} (h : slot e = some (name, s)) : inodeSector e = s := by
  rw [slot] at h
  split at h
  · exact (Prod.mk.inj (Option.some_inj.mp h)).2
  · nomatch h

theorem isNamed_eq (h : Ok e) (hname : 0 ∉ name) :
    isNamed name e = some (decide ((slot e).map Prod.fst = some name)) := by
  rw [isNamed, slot]
  split
  next huse =>
    rw [strEq_eq hname (List.mem_of_mem_take (h.2 huse)), nameOf]
    simp
  next => simp

theorem copyName_eq (h : Ok e) (huse : inUse e) : copyName e = some (nameOf e) := by
  have hmem := h.2 huse
  have hlen : (nameOf e).length ≤ nameMax := Nat.le_of_lt_succ (length_takeWhile_lt hmem)
  rw [copyName, if_pos (List.mem_of_mem_take hmem), ← nameOf, List.take_of_length_le hlen]

/-! The entry that `dir_add` writes. -/

variable {e name : List UInt8} {s : Nat}

theorem length_set (he : e.length = dirEntrySize) (hname : name.length ≤ nameMax) :
    (set e s name).length = dirEntrySize := by
  simp only [set, List.length_append, List.length_take, List.length_drop, length_le32,
    List.length_singleton]
  simp only [nameMax, dirEntrySize] at *
  omega

theorem drop_set : (set e s name).drop 4 =
    name ++ 0 :: ((e.drop (4 + name.length + 1)).take (nameMax - name.length) ++ [1]) := by
  rw [set, List.append_assoc, List.append_assoc, List.drop_append_of_le_length (by simp)]
  simp

theorem inUse_set (he : e.length = dirEntrySize) (hname : name.length ≤ nameMax) :
    inUse (set e s name) = true := by
  have hlen := length_set (s := s) he hname
  rw [set, List.length_append, List.length_singleton, show dirEntrySize = 19 + 1 from rfl,
    Nat.add_right_cancel_iff] at hlen
  rw [inUse, set, List.getD_append_right _ _ _ _ (Nat.le_of_eq hlen), hlen]
  rfl

theorem nameOf_set (hzero : 0 ∉ name) : nameOf (set e s name) = name := by
  have hall : ∀ b ∈ name, (b ≠ 0 : Bool) = true := by
    intro b hb
    simpa using fun h : b = 0 => hzero (h ▸ hb)
  rw [nameOf, drop_set, List.takeWhile_append_of_pos hall, List.takeWhile_cons_of_neg (by simp),
    List.append_nil]

section

variable (he : e.length = dirEntrySize)
include he

theorem ok_set (hname : name.length ≤ nameMax) : Ok (set e s name) := by
  refine ⟨length_set he hname, fun _ => ?_⟩
  rw [drop_set]
  have hlt : name.length < 15 := Nat.lt_succ_of_le hname
  refine List.mem_of_getElem? (i := name.length) ?_
  rw [List.getElem?_take_of_lt hlt, List.getElem?_append_right le_rfl, Nat.sub_self]
  rfl

theorem slot_set (hname : name.length ≤ nameMax) (hzero : 0 ∉ name) (hs : s < 2 ^ 32) :
    slot (set e s name) = some (name, s) := by
  have hsector : inodeSector (set e s name) = s := by
    rw [inodeSector, set, List.append_assoc, List.append_assoc, List.take_left' (length_le32 s),
      ofLe_le32 hs]
  rw [slot, if_pos (inUse_set he hname), nameOf_set hzero, hsector]

/-! The entry that `dir_remove` writes. -/

theorem inUse_unset : inUse (unset e) = false := by
  have hlt : 19 < e.length := he.symm ▸ (by decide)
  simp [inUse, unset, hlt]

theorem ok_unset : Ok (unset e) := by
  refine ⟨(List.length_set).trans he, fun huse => ?_⟩
  rw [inUse_unset he] at huse
  nomatch huse

theorem slot_unset : slot (unset e) = none :=
  if_neg (by rw [inUse_unset he]; exact Bool.false_ne_true)

end

end DirEntry

/-! ## All of them -/

/-- The entries of a directory. -/
abbrev dirEntries (d : Disk) (i : Nat) : List (List UInt8) := dirEntriesFrom d i 0

/-- The entries of a directory, as a table. -/
def slots (d : Disk) (i : Nat) : List (Option (List UInt8 × Nat)) :=
  (dirEntries d i).map DirEntry.slot

/-- All entries are as `dir_add` writes them. -/
def EntriesOk (d : Disk) (i : Nat) : Prop := ∀ e ∈ dirEntries d i, DirEntry.Ok e

theorem length_dirEntries (d : Disk) (i : Nat) :
    (dirEntries d i).length = (InodeDisk.length (d i)).toNat / dirEntrySize := by
  rw [dirEntries, dirEntriesFrom, List.length_map, List.length_range', Nat.sub_zero]

theorem getElem?_dirEntries (d : Disk) (i k : Nat) :
    (dirEntries d i)[k]? =
      if k < (InodeDisk.length (d i)).toNat / dirEntrySize then some (entryAt d i k) else none := by
  rw [dirEntries, dirEntriesFrom, List.getElem?_map, Nat.sub_zero]
  split
  next hlt => rw [List.getElem?_range' hlt]; simp
  next hge => rw [List.getElem?_eq_none (by simpa using hge)]; rfl

variable {n : Nat} {inodes : List Nat} {w w' : FsWorld} {i j k : Nat} {buffer : Nat → UInt8}

/-- **One entry is written**, and the others stay. -/
theorem dirEntries_of_wrote (h : FsInv.Wrote inodes i buffer (dirEntrySize * k) dirEntrySize w w')
    (hk : k ≤ (dirEntries w.disk i).length) :
    dirEntries w'.disk i
      = Table.put (dirEntries w.disk i) k ((List.range dirEntrySize).map buffer) := by
  rw [length_dirEntries] at hk
  have hlen := h.length
  refine List.ext_getElem? fun k' => ?_
  rw [Table.getElem?_put (by rwa [length_dirEntries]), getElem?_dirEntries, getElem?_dirEntries]
  rw [show dirEntrySize = 20 from rfl] at hk hlen
  by_cases heq : k' = k
  · subst heq
    rw [if_pos rfl, if_pos (by rw [hlen]; show _ < _ / 20; omega), entryAt, Option.some_inj,
      List.map_inj_left]
    intro b hb
    have hb : b < dirEntrySize := List.mem_range.mp hb
    rw [h.inside _ (Nat.le_add_right _ _) (Nat.add_lt_add_left hb _), Nat.add_sub_cancel_left]
  · -- the number of entries goes up by one if the new entry is behind the last
    have hcnt : k' < (InodeDisk.length (w'.disk i)).toNat / dirEntrySize ↔
        k' < (InodeDisk.length (w.disk i)).toNat / dirEntrySize := by
      show _ < _ / 20 ↔ _ < _ / 20
      omega
    simp only [hcnt]
    split
    next hlt =>
      rw [entryAt, entryAt, Option.some_inj, List.map_inj_left]
      intro b hb
      have hb : b < dirEntrySize := List.mem_range.mp hb
      rw [show dirEntrySize = 20 from rfl] at hlt hb ⊢
      refine h.outside _ (by omega) ?_
      rw [show dirEntrySize = 20 from rfl]
      omega
    next => rfl

theorem dirEntries_of_eq (hheader : w'.disk j = w.disk j)
    (hbytes : ∀ pos < (InodeDisk.length (w.disk j)).toNat,
      fileByte w'.disk j pos = fileByte w.disk j pos) :
    dirEntries w'.disk j = dirEntries w.disk j := by
  rw [dirEntries, dirEntries, dirEntriesFrom, dirEntriesFrom, hheader, List.map_inj_left]
  intro k hk
  rw [List.mem_range'_1] at hk
  rw [entryAt, entryAt, List.map_inj_left]
  intro b hb
  refine hbytes _ ?_
  have hb : b < dirEntrySize := List.mem_range.mp hb
  have hk : k < (InodeDisk.length (w.disk j)).toNat / dirEntrySize := by omega
  calc dirEntrySize * k + b < dirEntrySize * k + dirEntrySize := Nat.add_lt_add_left hb _
    _ = dirEntrySize * (k + 1) := (Nat.mul_succ _ _).symm
    _ ≤ dirEntrySize * ((InodeDisk.length (w.disk j)).toNat / dirEntrySize) :=
      Nat.mul_le_mul_left _ hk
    _ ≤ (InodeDisk.length (w.disk j)).toNat := Nat.mul_div_le _ _

/-! ## Searching -/

theorem findEntry_spec (hname : 0 ∉ name) {es : List (List UInt8)} (hok : ∀ e ∈ es, DirEntry.Ok e)
    (ofs : Nat) :
    (findEntry name es ofs = some none ∧ ∀ e ∈ es, (DirEntry.slot e).map Prod.fst ≠ some name) ∨
      ∃ k e s, findEntry name es ofs = some (some (e, ofs + dirEntrySize * k)) ∧
        es[k]? = some e ∧ DirEntry.slot e = some (name, s) := by
  induction es generalizing ofs with
  | nil => exact .inl ⟨rfl, fun e he => absurd he List.not_mem_nil⟩
  | cons e es ih =>
    obtain ⟨hoke, hok⟩ := List.forall_mem_cons.mp hok
    rw [findEntry, DirEntry.isNamed_eq hoke hname]
    by_cases hslot : (DirEntry.slot e).map Prod.fst = some name
    · rw [decide_eq_true hslot]
      obtain ⟨⟨_, s⟩, hs, rfl⟩ := Option.map_eq_some_iff.mp hslot
      exact .inr ⟨0, e, s, rfl, rfl, hs⟩
    · rw [decide_eq_false hslot]
      rcases ih hok (ofs + dirEntrySize) with ⟨hfind, hnone⟩ | ⟨k, e', s, hfind, hget, hs⟩
      · exact .inl ⟨hfind, List.forall_mem_cons.mpr ⟨hslot, hnone⟩⟩
      · refine .inr ⟨k + 1, e', s, hfind.trans ?_, hget, hs⟩
        rw [Nat.add_assoc, Nat.add_comm dirEntrySize, ← Nat.mul_succ]

namespace FsInv

variable {hdr : Nat → Sector} {L : Nat → Use → Prop} (dir : Inode) {m : List UInt8 → Option Nat}
  {name : List UInt8} {e : List UInt8}

theorem getElem?_slots (h : (dirEntries w.disk i)[k]? = some e) :
    (slots w.disk i)[k]? = some (DirEntry.slot e) := by
  rw [slots, List.getElem?_map, h]
  rfl

/-- **`lookup`** finds what the table has. -/
theorem exec_lookup_slots (h : FsInv n inodes w hdr L) (hi : dir.sector ∈ inodes)
    (hok : EntriesOk w.disk dir.sector) (hrep : Table.Represents (slots w.disk dir.sector) m)
    (u : Uninit) (hname : 0 ∉ name) :
    (m name = none ∧ (lookup u dir name).exec n w = some (none, w)) ∨
      ∃ k e s, m name = some s ∧
        (lookup u dir name).exec n w = some (some (e, dirEntrySize * k), w) ∧
        (dirEntries w.disk dir.sector)[k]? = some e ∧ DirEntry.slot e = some (name, s) := by
  rw [h.exec_lookup hi]
  rcases findEntry_spec hname hok 0 with ⟨hfind, hnone⟩ | ⟨k, e, s, hfind, hget, hslot⟩
  · refine .inl ⟨?_, by rw [hfind]; rfl⟩
    by_contra hsome
    obtain ⟨s, hs⟩ := Option.ne_none_iff_exists'.mp hsome
    obtain ⟨k, hk⟩ := hrep.exists_get hs
    rw [slots, List.getElem?_map] at hk
    obtain ⟨e, he, hslot⟩ := Option.map_eq_some_iff.mp hk
    exact hnone e (List.mem_of_getElem? he) (by rw [hslot]; rfl)
  · have hget' := getElem?_slots hget
    rw [hslot] at hget'
    refine .inr ⟨k, e, s, hrep.get hget', ?_, hget, hslot⟩
    rw [hfind, Nat.zero_add]
    rfl

/-- The loop of `dir_add` from entry `k` on, with rounds enough, finds the first slot that is not in
use, or the end. -/
theorem exec_freeSlotLoop (h : FsInv n inodes w hdr L) (hi : dir.sector ∈ inodes) (u : Uninit)
    (fuel : Nat) : ∀ {k : Nat} {e : List UInt8}, e.length = dirEntrySize →
      k ≤ (slots w.disk dir.sector).length → (slots w.disk dir.sector).length < k + fuel →
      (∀ j < k, (slots w.disk dir.sector)[j]? ≠ some none) →
      ∃ e' k', (freeSlotLoop u dir fuel e (dirEntrySize * k)).exec n w
          = some ((e', dirEntrySize * k'), w) ∧ e'.length = dirEntrySize ∧
        ((slots w.disk dir.sector)[k']? = some none ∨
          k' = (slots w.disk dir.sector).length ∧ none ∉ slots w.disk dir.sector) := by
  have hcnt : (slots w.disk dir.sector).length
      = (InodeDisk.length (w.disk dir.sector)).toNat / dirEntrySize := by
    rw [slots, List.length_map, length_dirEntries]
  induction fuel with
  | zero => intro k e _ hk hfuel; omega
  | succ fuel ih =>
    intro k e he hk hfuel hused
    obtain ⟨bs, hread, hbs⟩ := h.exec_readEntry hi u (hcnt ▸ hk)
    rw [freeSlotLoop, exec_bind_of_eq hread]
    dsimp only
    split at hbs
    next hlt =>
      have hlen : bs.length = dirEntrySize := by
        rw [hbs, entryAt, List.length_map, List.length_range]
      have hget : (dirEntries w.disk dir.sector)[k]? = some bs := by
        rw [getElem?_dirEntries, if_pos hlt, hbs]
      rw [List.drop_of_length_le (by rw [he, hlen]), List.append_nil]
      split
      next huse =>
        refine ih hlen (hcnt ▸ hlt) (by omega) fun j hj => ?_
        rcases Nat.lt_succ_iff_lt_or_eq.mp hj with hlt | rfl
        · exact hused j hlt
        · rw [getElem?_slots hget, DirEntry.slot, if_pos huse.2]
          rintro ⟨⟩
      next hnot =>
        refine ⟨bs, k, rfl, hlen, .inl ?_⟩
        rw [getElem?_slots hget, DirEntry.slot, if_neg fun huse => hnot ⟨hlen, huse⟩]
    next hge =>
      rw [if_neg fun hlen => Nat.ne_of_lt hbs hlen.1]
      have hk : k = (slots w.disk dir.sector).length :=
        Nat.le_antisymm hk (hcnt ▸ Nat.not_lt.mp hge)
      refine ⟨_, k, rfl, ?_, .inr ⟨hk, fun hmem => ?_⟩⟩
      · rw [List.length_append, List.length_drop]
        omega
      · obtain ⟨j, hj⟩ := List.mem_iff_getElem?.mp hmem
        exact hused j (hk ▸ (List.getElem?_eq_some_iff.mp hj).1) hj

/-! ## Writing -/

/-- There is room for one more entry, with `free` sectors to allocate: a slot is unused, or the
directory can grow by one. -/
def HasRoom (d : Disk) (i free : Nat) : Prop :=
  none ∈ slots d i ∨
    dirEntrySize * (slots d i).length + dirEntrySize ≤ maxLength ∧
      sectorNeed ((dirEntrySize * (slots d i).length + dirEntrySize + 511) / 512 - blocks (d i))
        (blocks (d i)) ≤ free

/-- The state after slot `k` of the directory in sector `i` was stored. -/
structure StoredSlot (n : Nat) (inodes : List Nat) (i k : Nat) (x : Option (List UInt8 × Nat))
    (w w' : FsWorld) : Prop where
  ok : FsOk n inodes w'
  /-- The entries are as `dir_add` writes them. -/
  entries : EntriesOk w'.disk i
  /-- The slot is stored, and no other. -/
  slots : slots w'.disk i = Table.put (Pintos.slots w.disk i) k x

theorem length_slots (d : Disk) (i : Nat) : (slots d i).length = (dirEntries d i).length :=
  List.length_map _

theorem range_map_getD (he : e.length = dirEntrySize) :
    (List.range dirEntrySize).map (fun i => e.getD i 0) = e := by
  refine List.ext_getElem (by rw [List.length_map, List.length_range, he]) fun j h1 h2 => ?_
  rw [List.getElem_map, List.getElem_range, List.getD_eq_getElem _ _ h2]

/-- **Writing an entry**, in place of one or behind the last if there is room. -/
theorem exec_writeEntry (h : FsOk n inodes w) (hi : dir.sector ∈ inodes)
    (hi0 : dir.sector ≠ freeMapSector) (hdeny : dir.denyWriteCnt = 0)
    (hok : EntriesOk w.disk dir.sector) (u : Uninit) (depth : Nat) (he : DirEntry.Ok e)
    (hk : k < (slots w.disk dir.sector).length ∨ k = (slots w.disk dir.sector).length ∧
      none ∉ slots w.disk dir.sector ∧ HasRoom w.disk dir.sector w.mem.freeMap.freeCnt) :
    ∃ w', (inodeWriteAt u (depth + 2) dir (fun i => e.getD i 0) dirEntrySize
          ((dirEntrySize * k : Nat) : Int)).exec n w = some ((dirEntrySize : Int), w') ∧
      StoredSlot n inodes dir.sector k (DirEntry.slot e) w w' := by
  have hcap := (h.length _ hi).2
  have hcnt : (slots w.disk dir.sector).length
      = (InodeDisk.length (w.disk dir.sector)).toNat / dirEntrySize := by
    rw [length_slots, length_dirEntries]
  have hle : k ≤ (dirEntries w.disk dir.sector).length := by
    rw [← length_slots]
    omega
  have hroom : dirEntrySize * k + dirEntrySize ≤ maxLength ∧
      sectorNeed ((dirEntrySize * k + dirEntrySize + 511) / 512 - blocks (w.disk dir.sector))
        (blocks (w.disk dir.sector)) ≤ w.mem.freeMap.freeCnt := by
    rcases hk with hlt | ⟨rfl, hnone, hroom⟩
    · have hend : dirEntrySize * k + dirEntrySize
          ≤ (InodeDisk.length (w.disk dir.sector)).toNat := by
        rw [hcnt] at hlt
        exact Nat.le_trans (Nat.mul_le_mul_left _ hlt) (Nat.mul_div_le _ _)
      refine ⟨hend.trans (Int.toNat_le.mpr hcap), ?_⟩
      rw [Nat.sub_eq_zero_of_le (by rw [blocks]; omega)]
      exact Nat.zero_le _
    · exact hroom.resolve_left hnone
  obtain ⟨w', hexec, hok', hwrote⟩ := h.exec_inodeWriteAt hi hi0 hdeny u depth
    (fun i => e.getD i 0) hroom.1 hroom.2
  have hentries : dirEntries w'.disk dir.sector
      = Table.put (dirEntries w.disk dir.sector) k e := by
    rw [dirEntries_of_wrote hwrote hle, range_map_getD he.1]
  refine ⟨w', hexec, hok', fun x hx => ?_, ?_⟩
  · rw [hentries] at hx
    obtain ⟨j, hj⟩ := List.mem_iff_getElem?.mp hx
    rw [Table.getElem?_put hle] at hj
    split at hj
    next => exact Option.some_inj.mp hj ▸ he
    next => exact hok x (List.mem_of_getElem? hj)
  · rw [slots, hentries, Table.map_put, slots]

theorem length_slots_lt (h : FsInv n inodes w hdr L) (hi : i ∈ inodes) :
    (slots w.disk i).length < dirEntryCnt := by
  rw [length_slots, length_dirEntries]
  exact Nat.lt_of_le_of_lt (Nat.div_le_div_right (Int.toNat_le.mpr (h.length _ hi).2)) (by decide)

/-- **`dir_add` fails** on a name that cannot be one, and on a name that is there. -/
theorem exec_dirAdd_fails (h : FsInv n inodes w hdr L) (hi : dir.sector ∈ inodes)
    (hok : EntriesOk w.disk dir.sector) (hrep : Table.Represents (slots w.disk dir.sector) m)
    (u : Uninit) (depth : Nat) (e : List UInt8) (hname : 0 ∉ name) (s : Nat)
    (hfail : name = [] ∨ nameMax < name.length ∨ m name ≠ none) :
    (dirAdd u depth e dir name s).exec n w = some (false, w) := by
  rw [dirAdd]
  split
  next => rfl
  next hnot =>
    rcases exec_lookup_slots dir h hi hok hrep u hname with ⟨hnone, -⟩ | ⟨k, e', s', -, hlook, -⟩
    · exact absurd hnone (by tauto)
    · exact (exec_bind_of_eq hlook).trans (exec_pure _)

/-- **`dir_add`** stores any other name, in a slot that is not in use. -/
theorem exec_dirAdd (h : FsOk n inodes w) (hi : dir.sector ∈ inodes)
    (hi0 : dir.sector ≠ freeMapSector) (hdeny : dir.denyWriteCnt = 0)
    (hok : EntriesOk w.disk dir.sector) (hrep : Table.Represents (slots w.disk dir.sector) m)
    (hroom : HasRoom w.disk dir.sector w.mem.freeMap.freeCnt) (u : Uninit) (depth : Nat)
    (he : e.length = dirEntrySize) (hname : 0 ∉ name) {s : Nat} (hs : s < 2 ^ 32)
    (hempty : name ≠ []) (hlen : name.length ≤ nameMax) (habsent : m name = none) :
    ∃ w' k, (dirAdd u (depth + 2) e dir name s).exec n w = some (true, w') ∧
      StoredSlot n inodes dir.sector k (some (name, s)) w w' ∧
      ((slots w.disk dir.sector)[k]? = some none ∨ k = (slots w.disk dir.sector).length) := by
  obtain ⟨e', k, hloop, he', hk⟩ := exec_freeSlotLoop dir h hi u dirEntryCnt he
    (Nat.zero_le _) (by rw [Nat.zero_add]; exact h.length_slots_lt hi) nofun
  obtain ⟨w', hwrite, hstored⟩ := exec_writeEntry dir h hi hi0 hdeny hok u depth
    (DirEntry.ok_set he' hlen) (by
      rcases hk with hk | ⟨hk, hnone⟩
      · exact .inl (List.getElem?_eq_some_iff.mp hk).1
      · exact .inr ⟨hk, hnone, hroom⟩)
  rw [DirEntry.slot_set he' hlen hname hs] at hstored
  refine ⟨w', k, ?_, hstored, hk.imp_right And.left⟩
  rcases exec_lookup_slots dir h hi hok hrep u hname with ⟨-, hlook⟩ | ⟨_, _, _, hsome, -⟩
  · rw [dirAdd, if_neg (by rw [not_or, Nat.not_lt]; exact ⟨hempty, hlen⟩), exec_bind_of_eq hlook]
    rw [Nat.mul_zero] at hloop
    rw [exec_bind_of_eq hloop]
    exact (exec_bind_of_eq hwrite).trans (exec_pure _)
  · exact nomatch habsent.symm.trans hsome

/-- **`dir_remove`** fails on a name that is not there, and otherwise frees its slot. -/
theorem exec_dirRemove (h : FsOk n inodes w) (hi : dir.sector ∈ inodes)
    (hi0 : dir.sector ≠ freeMapSector) (hdeny : dir.denyWriteCnt = 0)
    (hok : EntriesOk w.disk dir.sector) (hrep : Table.Represents (slots w.disk dir.sector) m)
    (u : Uninit) (deny : Nat → Nat) (depth : Nat) (hname : 0 ∉ name) :
    (m name = none ∧ (dirRemove u deny (depth + 2) dir name).exec n w = some (none, w)) ∨
      ∃ w' k s, m name = some s ∧
        (dirRemove u deny (depth + 2) dir name).exec n w = some (some (inodeOpen deny s), w') ∧
        StoredSlot n inodes dir.sector k none w w' ∧
        (slots w.disk dir.sector)[k]? = some (some (name, s)) := by
  rcases exec_lookup_slots dir h hi hok hrep u hname with
    ⟨hnone, hlook⟩ | ⟨k, e, s, hsome, hlook, hget, hslot⟩
  · exact .inl ⟨hnone, (exec_bind_of_eq hlook).trans (exec_pure _)⟩
  · have he : e.length = dirEntrySize := (hok e (List.mem_of_getElem? hget)).1
    have hget' := getElem?_slots hget
    obtain ⟨w', hwrite, hstored⟩ := exec_writeEntry dir h hi hi0 hdeny hok u depth
      (DirEntry.ok_unset he) (.inl (List.getElem?_eq_some_iff.mp hget').1)
    rw [DirEntry.slot_unset he] at hstored
    rw [hslot] at hget'
    refine .inr ⟨w', k, s, hsome, ?_, hstored, hget'⟩
    rw [dirRemove, exec_bind_of_eq hlook]
    rw [exec_bind_of_eq hwrite, if_pos rfl, DirEntry.inodeSector_of_slot hslot, exec_pure]

/-! ## Listing -/

/-- **`dir_readdir`** gives the next name, with rounds enough for the entries that are left. -/
theorem exec_readdirLoop (h : FsInv n inodes w hdr L) (hi : dir.sector ∈ inodes)
    (hok : EntriesOk w.disk dir.sector) (u : Uninit) (fuel : Nat) :
    ∀ {k : Nat}, k ≤ (slots w.disk dir.sector).length →
      (slots w.disk dir.sector).length < k + fuel →
      (Table.keys ((slots w.disk dir.sector).drop k) = [] ∧
          (readdirLoop u dir fuel (dirEntrySize * k)).exec n w
            = some ((none, dirEntrySize * (slots w.disk dir.sector).length), w)) ∨
        ∃ k' ≤ (slots w.disk dir.sector).length, ∃ name,
          Table.keys ((slots w.disk dir.sector).drop k)
            = name :: Table.keys ((slots w.disk dir.sector).drop k') ∧
          (readdirLoop u dir fuel (dirEntrySize * k)).exec n w
            = some ((some name, dirEntrySize * k'), w) := by
  have hcnt : (slots w.disk dir.sector).length
      = (InodeDisk.length (w.disk dir.sector)).toNat / dirEntrySize := by
    rw [length_slots, length_dirEntries]
  induction fuel with
  | zero => intro k hk hfuel; omega
  | succ fuel ih =>
    intro k hk hfuel
    obtain ⟨e, hread, he⟩ := h.exec_readEntry hi u (hcnt ▸ hk)
    rw [readdirLoop, exec_bind_of_eq hread]
    split at he
    next hlt =>
      have hget : (dirEntries w.disk dir.sector)[k]? = some e := by
        rw [getElem?_dirEntries, if_pos hlt, he]
      have hmem := hok e (List.mem_of_getElem? hget)
      obtain ⟨hlt', hget'⟩ := List.getElem?_eq_some_iff.mp (getElem?_slots hget)
      have hdrop : (slots w.disk dir.sector).drop k
          = DirEntry.slot e :: (slots w.disk dir.sector).drop (k + 1) :=
        (List.drop_eq_getElem_cons hlt').trans (congrArg (List.cons · _) hget')
      rw [if_pos hmem.1, hdrop]
      split
      next huse =>
        rw [DirEntry.copyName_eq hmem huse, DirEntry.slot, if_pos huse, Table.keys_cons_some]
        exact .inr ⟨k + 1, hlt', DirEntry.nameOf e, rfl, rfl⟩
      next hunused =>
        rw [DirEntry.slot, if_neg hunused, Table.keys_cons_none]
        exact ih hlt' (by omega)
    next hge =>
      have hk : k = (slots w.disk dir.sector).length :=
        Nat.le_antisymm hk (hcnt ▸ Nat.not_lt.mp hge)
      rw [if_neg he.ne]
      refine .inl ⟨?_, ?_⟩
      · rw [hk, List.drop_length]
        rfl
      · rw [← hk, exec_pure]

end FsInv

end Pintos
