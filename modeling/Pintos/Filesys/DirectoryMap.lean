import Pintos.Filesys.Entries

/-!
# A directory is a finite map

Runs of `dir_add`, `dir_remove`, `lookup` and `dir_readdir` on one directory whose entries start
unused, in any order and with any arguments.  Whether the sectors that are stored hold inodes does
not matter here, nor does what becomes of the inode that `dir_remove` marks as removed: the routines
look at the directory's own entries only.

`mapOf` says what a run amounts to: the names that were added and not removed since, each with the
sector it was added for.  `directory_is_map` says that the directory is that map, as far as any of
the four routines can tell.  It asks for room on the disk whenever a name is added (`HasRoom`).

The argument is that of `Lib/Table.lean`: the entries are a table of slots, and a call stores one of
them or none (`DirInv.add` and its companions).
-/

namespace Pintos

open Bytes Prog FsInv

/-! ## The machine -/

/-- An open directory, in the file system. -/
structure DirState where
  world : FsWorld
  pos : Nat

/-- A call on the directory. -/
inductive DirCall where
  /-- `dir_add`, with `e` what its entry holds before it is set. -/
  | add (u : Uninit) (e : List UInt8) (name : List UInt8) (inodeSector : Nat)
  /-- `dir_remove`. -/
  | remove (u : Uninit) (name : List UInt8)
  /-- `lookup`. -/
  | lookup (u : Uninit) (name : List UInt8)
  /-- `dir_readdir`. -/
  | readdir (u : Uninit)
  /-- `dir_open`, which starts at position 0. -/
  | reopen

/-- What a call returns. -/
inductive DirReply where
  /-- The result of `dir_add`. -/
  | added (success : Bool)
  /-- The result of `dir_remove`. -/
  | removed (success : Bool)
  /-- The sector in the entry that `lookup` finds. -/
  | found (inodeSector : Option Nat)
  /-- The name that `dir_readdir` gives, or `none` where it returns false. -/
  | entry (name : Option (List UInt8))
  /-- The directory is open. -/
  | opened

/-- The arguments are of their types: names are strings, sectors fit into a word, and entries have
the size of `struct dir_entry`. -/
def DirCall.Typed : DirCall → Prop
  | .add _ e name inodeSector => e.length = dirEntrySize ∧ 0 ∉ name ∧ inodeSector < 2 ^ 32
  | .remove _ name => 0 ∉ name
  | .lookup _ name => 0 ∉ name
  | .readdir _ => True
  | .reopen => True

instance : DecidablePred DirCall.Typed
  | .add _ e name inodeSector =>
    inferInstanceAs (Decidable (e.length = dirEntrySize ∧ 0 ∉ name ∧ inodeSector < 2 ^ 32))
  | .remove _ name => inferInstanceAs (Decidable (0 ∉ name))
  | .lookup _ name => inferInstanceAs (Decidable (0 ∉ name))
  | .readdir _ => inferInstanceAs (Decidable True)
  | .reopen => inferInstanceAs (Decidable True)

/-- A call on the directory with its inode in sector `i`. -/
def DirCall.exec (n depth i : Nat) (st : DirState) : DirCall → Option (DirReply × DirState)
  | .add u e name inodeSector =>
    ((dirAdd u (depth + 2) e ⟨i, 0⟩ name inodeSector).exec n st.world).map fun r =>
      (.added r.1, ⟨r.2, st.pos⟩)
  | .remove u name =>
    ((dirRemove u (fun _ => 0) (depth + 2) ⟨i, 0⟩ name).exec n st.world).map fun r =>
      (.removed r.1.isSome, ⟨r.2, st.pos⟩)
  | .lookup u name =>
    ((Pintos.lookup u ⟨i, 0⟩ name).exec n st.world).map fun r =>
      (.found (r.1.map fun e => DirEntry.inodeSector e.1), ⟨r.2, st.pos⟩)
  | .readdir u =>
    ((dirReaddir u ⟨i, 0⟩ st.pos).exec n st.world).map fun r => (.entry r.1.1, ⟨r.2, r.1.2⟩)
  | .reopen => some (.opened, ⟨st.world, 0⟩)

/-- The directory with its inode in sector `i`, on a disk of `n` sectors. -/
def dirMachine (n depth i : Nat) : Machine DirState DirCall DirReply where
  step st call := if call.Typed then call.exec n depth i st else none

/-- The disk has room for the entry of a `dir_add`. -/
def DirCall.Room (i : Nat) (st : DirState) : DirCall → Prop
  | .add .. => HasRoom st.world.disk i st.world.mem.freeMap.freeCnt
  | _ => True

/-- A directory in a file system in order, opened with none of its entries in use. -/
structure UnusedDir (n : Nat) (inodes : List Nat) (i : Nat) (st : DirState) : Prop where
  ok : FsOk n inodes st.world
  /-- The directory is one of its files. -/
  mem : i ∈ inodes
  ne : i ≠ freeMapSector
  unused : ∀ e ∈ dirEntries st.world.disk i, DirEntry.inUse e = false
  /-- The first entry is the next to be read. -/
  pos : st.pos = 0

/-! ## The map -/

/-- What a call, with its reply, does to the map. -/
def DirCall.record (m : List UInt8 → Option Nat) : DirCall → DirReply → List UInt8 → Option Nat
  | .add _ _ name inodeSector, .added true => Function.update m name (some inodeSector)
  | .remove _ name, .removed true => Function.update m name none
  | _, _ => m

/-- The map after some calls, from what it was before them. -/
def mapAfter (m : List UInt8 → Option Nat) : List (DirCall × DirReply) → List UInt8 → Option Nat
  | [] => m
  | (call, reply) :: rest => mapAfter (call.record m reply) rest

/-- The map that calls on an unused directory amount to: each name that a `dir_add` added and no
`dir_remove` removed since, with the sector of the latest `dir_add`. -/
def mapOf (trace : List (DirCall × DirReply)) : List UInt8 → Option Nat :=
  mapAfter (fun _ => none) trace

/-- **The directory is the map `m`**, by what its routines say. -/
structure DirIsMap (n depth i : Nat) (st : DirState) (m : List UInt8 → Option Nat) : Prop where
  /-- `lookup` finds the sector of a name that is present, and nothing for any other. -/
  lookup : ∀ u name, 0 ∉ name →
    (dirMachine n depth i).step st (.lookup u name) = some (.found (m name), st)
  /-- `dir_add` fails just on an empty name, on a name longer than 14 bytes and on a name that is
  present.  Then it changes nothing. -/
  add : ∀ u e name inodeSector, (DirCall.add u e name inodeSector).Typed →
    (DirCall.add u e name inodeSector).Room i st → ∃ success st',
      (dirMachine n depth i).step st (.add u e name inodeSector) = some (.added success, st') ∧
        (success = false ↔ name = [] ∨ 14 < name.length ∨ m name ≠ none) ∧
        (success = false → st' = st)
  /-- `dir_remove` fails just on a name that is absent. -/
  remove : ∀ u name, 0 ∉ name → ∃ success st',
    (dirMachine n depth i).step st (.remove u name) = some (.removed success, st') ∧
      (success = false ↔ m name = none)
  /-- No two entries in use have the same name. -/
  unique : ∀ {k k' : Nat} {e e'}, (dirEntries st.world.disk i)[k]? = some e →
    (dirEntries st.world.disk i)[k']? = some e' → DirEntry.inUse e → DirEntry.inUse e' →
      DirEntry.nameOf e = DirEntry.nameOf e' → k = k'
  /-- From position 0, `dir_readdir` gives each name that is present once, and then false. -/
  readdir : ∃ names : List (List UInt8), names.Nodup ∧ (∀ name, name ∈ names ↔ m name ≠ none) ∧
    ∀ (us : List Uninit) (u : Uninit), us.length = names.length → ∃ pos,
      (dirMachine n depth i).run ⟨st.world, 0⟩ ((us ++ [u]).map .readdir)
        = some (names.map (.entry ∘ some) ++ [.entry none], ⟨st.world, pos⟩)

/-! ## The invariant -/

/-- The entries are a table of the map, and the position is that of an entry or the end. -/
structure DirInv (n : Nat) (inodes : List Nat) (i : Nat) (st : DirState)
    (m : List UInt8 → Option Nat) : Prop where
  ok : FsOk n inodes st.world
  /-- The directory is one of its files. -/
  mem : i ∈ inodes
  ne : i ≠ freeMapSector
  /-- The entries are as `dir_add` writes them. -/
  entries : EntriesOk st.world.disk i
  rep : Table.Represents (slots st.world.disk i) m
  pos : ∃ k ≤ (slots st.world.disk i).length, st.pos = dirEntrySize * k

variable {n depth i : Nat} {inodes : List Nat} {st st' : DirState}
  {m : List UInt8 → Option Nat}

theorem UnusedDir.inv (h : UnusedDir n inodes i st) : DirInv n inodes i st fun _ => none where
  ok := h.ok
  mem := h.mem
  ne := h.ne
  entries e he := by
    obtain ⟨k, hk⟩ := List.mem_iff_getElem?.mp he
    rw [getElem?_dirEntries] at hk
    split at hk
    next =>
      refine ⟨?_, fun huse => by cases (h.unused e he).symm.trans huse⟩
      rw [← Option.some_inj.mp hk, entryAt, List.length_map, List.length_range]
    next => cases hk
  rep := by
    refine Table.represents_empty fun x hx => ?_
    obtain ⟨e, he, rfl⟩ := List.mem_map.mp hx
    rw [DirEntry.slot, h.unused e he, if_neg Bool.false_ne_true]
  pos := ⟨0, Nat.zero_le _, h.pos⟩

theorem dirMachine_step {call : DirCall} (h : call.Typed) :
    (dirMachine n depth i).step st call = call.exec n depth i st := if_pos h

namespace DirInv

theorem stored (h : DirInv n inodes i st m) {k : Nat} {x : Option (List UInt8 × Nat)} {w' : FsWorld}
    {m' : List UInt8 → Option Nat} (hs : StoredSlot n inodes i k x st.world w')
    (hrep : Table.Represents (Table.put (slots st.world.disk i) k x) m') :
    DirInv n inodes i ⟨w', st.pos⟩ m' := by
  obtain ⟨j, hj, hpos⟩ := h.pos
  refine ⟨hs.ok, h.mem, h.ne, hs.entries, hs.slots.symm ▸ hrep, j, ?_, hpos⟩
  exact hj.trans (hs.slots.symm ▸ Table.le_length_put _ _ _)

variable {name : List UInt8}

section

variable (h : DirInv n inodes i st m)
include h

theorem add (u : Uninit) {e : List UInt8} {s : Nat} (htyped : (DirCall.add u e name s).Typed)
    (hroom : (DirCall.add u e name s).Room i st) :
    ∃ success st', (dirMachine n depth i).step st (.add u e name s) = some (.added success, st') ∧
      (success = false ↔ name = [] ∨ 14 < name.length ∨ m name ≠ none) ∧
      (success = false → st' = st) ∧
      DirInv n inodes i st' ((DirCall.add u e name s).record m (.added success)) := by
  rw [dirMachine_step htyped]
  obtain ⟨he, hname, hs⟩ := htyped
  by_cases hfail : name = [] ∨ 14 < name.length ∨ m name ≠ none
  · refine ⟨false, st, ?_, iff_of_true rfl hfail, fun _ => rfl, h⟩
    show Option.map _ _ = _
    rw [exec_dirAdd_fails ⟨i, 0⟩ h.ok h.mem h.entries h.rep u (depth + 2) e hname s hfail]
    rfl
  · simp only [not_or, Nat.not_lt, not_not] at hfail
    obtain ⟨w', k, hexec, hstored, hk⟩ := exec_dirAdd ⟨i, 0⟩ h.ok h.mem h.ne rfl h.entries
      h.rep hroom u depth he hname hs hfail.1 hfail.2.1 hfail.2.2
    refine ⟨true, ⟨w', st.pos⟩, ?_, ?_, nofun, h.stored hstored (h.rep.add s hk hfail.2.2)⟩
    · show Option.map _ _ = _
      rw [hexec]
      rfl
    · simp [hfail]

theorem remove (u : Uninit) (hname : 0 ∉ name) :
    ∃ success st', (dirMachine n depth i).step st (.remove u name)
        = some (.removed success, st') ∧ (success = false ↔ m name = none) ∧
      DirInv n inodes i st' ((DirCall.remove u name).record m (.removed success)) := by
  rw [dirMachine_step (show (DirCall.remove u name).Typed from hname)]
  rcases exec_dirRemove ⟨i, 0⟩ h.ok h.mem h.ne rfl h.entries h.rep u (fun _ => 0) depth
    hname with ⟨hnone, hexec⟩ | ⟨w', k, s, hsome, hexec, hstored, hk⟩
  · refine ⟨false, st, ?_, iff_of_true rfl hnone, h⟩
    show Option.map _ _ = _
    rw [hexec]
    rfl
  · refine ⟨true, ⟨w', st.pos⟩, ?_, ?_, h.stored hstored (h.rep.remove hk)⟩
    · show Option.map _ _ = _
      rw [hexec]
      rfl
    · simp [hsome]

theorem lookup (u : Uninit) (hname : 0 ∉ name) :
    (dirMachine n depth i).step st (.lookup u name) = some (.found (m name), st) := by
  rw [dirMachine_step (show (DirCall.lookup u name).Typed from hname)]
  show Option.map _ _ = _
  rcases exec_lookup_slots ⟨i, 0⟩ h.ok h.mem h.entries h.rep u hname with
    ⟨hnone, hexec⟩ | ⟨k, e, s, hsome, hexec, -, hslot⟩
  · rw [hexec, hnone]
    rfl
  · rw [hexec, hsome, ← DirEntry.inodeSector_of_slot hslot]
    rfl

theorem readdir (depth : Nat) (u : Uninit) {k : Nat} (hk : k ≤ (slots st.world.disk i).length) :
    (Table.keys ((slots st.world.disk i).drop k) = [] ∧
        (dirMachine n depth i).step ⟨st.world, dirEntrySize * k⟩ (.readdir u)
          = some (.entry none, ⟨st.world, dirEntrySize * (slots st.world.disk i).length⟩)) ∨
      ∃ k' ≤ (slots st.world.disk i).length, ∃ name,
        Table.keys ((slots st.world.disk i).drop k)
          = name :: Table.keys ((slots st.world.disk i).drop k') ∧
        (dirMachine n depth i).step ⟨st.world, dirEntrySize * k⟩ (.readdir u)
          = some (.entry (some name), ⟨st.world, dirEntrySize * k'⟩) := by
  have hfuel : (slots st.world.disk i).length < k + dirEntryCnt :=
    Nat.lt_of_lt_of_le (h.ok.length_slots_lt h.mem) (Nat.le_add_left _ _)
  rcases exec_readdirLoop ⟨i, 0⟩ h.ok h.mem h.entries u dirEntryCnt hk hfuel with
    ⟨hkeys, hexec⟩ | ⟨k', hk', name, hkeys, hexec⟩
  · refine .inl ⟨hkeys, ?_⟩
    show Option.map _ ((readdirLoop u ⟨i, 0⟩ dirEntryCnt (dirEntrySize * k)).exec n st.world) = _
    rw [hexec]
    rfl
  · refine .inr ⟨k', hk', name, hkeys, ?_⟩
    show Option.map _ ((readdirLoop u ⟨i, 0⟩ dirEntryCnt (dirEntrySize * k)).exec n st.world) = _
    rw [hexec]
    rfl

theorem run_readdir (us : List Uninit) (u : Uninit) :
    ∀ {k : Nat}, k ≤ (slots st.world.disk i).length →
      us.length = (Table.keys ((slots st.world.disk i).drop k)).length → ∃ pos,
        (dirMachine n depth i).run ⟨st.world, dirEntrySize * k⟩ ((us ++ [u]).map .readdir)
          = some ((Table.keys ((slots st.world.disk i).drop k)).map (.entry ∘ some)
            ++ [.entry none], ⟨st.world, pos⟩) := by
  induction us with
  | nil =>
    intro k hk hlen
    rcases h.readdir depth u hk with ⟨hkeys, hstep⟩ | ⟨k', -, name, hkeys, -⟩
    · rw [hkeys]
      exact ⟨_, Machine.run_singleton hstep⟩
    · rw [hkeys] at hlen
      nomatch hlen
  | cons u' us ih =>
    intro k hk hlen
    rcases h.readdir depth u' hk with ⟨hkeys, -⟩ | ⟨k', hk', name, hkeys, hstep⟩
    · rw [hkeys] at hlen
      nomatch hlen
    · rw [hkeys] at hlen ⊢
      obtain ⟨pos, hrun⟩ := ih hk' (Nat.succ.inj hlen)
      exact ⟨pos, Machine.run_cons_of_step hstep hrun⟩

/-- **What the routines say**, under the invariant. -/
theorem isMap : DirIsMap n depth i st m where
  lookup u _ hname := h.lookup u hname
  add u e name s htyped hroom := by
    obtain ⟨success, st', hstep, hiff, hsame, -⟩ := h.add u htyped hroom
    exact ⟨success, st', hstep, hiff, hsame⟩
  remove u name hname := by
    obtain ⟨success, st', hstep, hiff, -⟩ := h.remove u hname
    exact ⟨success, st', hstep, hiff⟩
  unique {k k' e e'} hk hk' huse huse' hname := by
    have hslot := getElem?_slots hk
    have hslot' := getElem?_slots hk'
    rw [DirEntry.slot, if_pos huse] at hslot
    rw [DirEntry.slot, if_pos huse', ← hname] at hslot'
    exact h.rep.unique hslot hslot'
  readdir := by
    refine ⟨Table.keys (slots st.world.disk i), h.rep.nodup_keys, h.rep.mem_keys,
      fun us u hlen => ?_⟩
    exact h.run_readdir us u (Nat.zero_le _) hlen

theorem step {call : DirCall} {reply : DirReply} (hroom : call.Room i st)
    (hstep : (dirMachine n depth i).step st call = some (reply, st')) :
    DirInv n inodes i st' (call.record m reply) := by
  have htyped : call.Typed := by
    by_contra hnot
    exact nomatch (if_neg hnot).symm.trans hstep
  cases call with
  | add u e name s =>
    obtain ⟨success, st1, hstep1, -, -, hinv⟩ := h.add u htyped hroom
    cases hstep1.symm.trans hstep
    exact hinv
  | remove u name =>
    obtain ⟨success, st1, hstep1, -, hinv⟩ := h.remove u htyped
    cases hstep1.symm.trans hstep
    exact hinv
  | lookup u name =>
    cases (h.lookup u htyped).symm.trans hstep
    exact h
  | readdir u =>
    obtain ⟨k, hk, hpos⟩ := h.pos
    obtain ⟨w, pos⟩ := st
    subst hpos
    rcases h.readdir depth u hk with ⟨-, hstep1⟩ | ⟨k', hk', name, -, hstep1⟩
    · cases hstep1.symm.trans hstep
      exact ⟨h.ok, h.mem, h.ne, h.entries, h.rep, _, le_rfl, rfl⟩
    · cases hstep1.symm.trans hstep
      exact ⟨h.ok, h.mem, h.ne, h.entries, h.rep, k', hk', rfl⟩
  | reopen =>
    cases hstep
    exact ⟨h.ok, h.mem, h.ne, h.entries, h.rep, 0, Nat.zero_le _, rfl⟩

end

theorem run {calls : List DirCall} : ∀ {st : DirState} {m : List UInt8 → Option Nat}
    {replies : List DirReply}, DirInv n inodes i st m →
      (dirMachine n depth i).Along (fun st call => call.Room i st) st calls →
      (dirMachine n depth i).run st calls = some (replies, st') →
      DirInv n inodes i st' (mapAfter m (calls.zip replies)) := by
  induction calls with
  | nil =>
    intro st m replies h _ hrun
    cases hrun
    exact h
  | cons call calls ih =>
    intro st m replies h halong hrun
    obtain ⟨reply, t, replies, hstep, hrest, rfl⟩ := Machine.run_cons_eq_some hrun
    exact ih (h.step halong.1 hstep) (halong.2 reply t hstep) hrest

end DirInv

/-- **A directory is a finite map.**  After any run of calls on a directory whose entries were
unused, with room on the disk for each name that was added, the directory is the map that the run
amounts to. -/
theorem directory_is_map {calls : List DirCall} {replies : List DirReply}
    (hst : UnusedDir n inodes i st)
    (halong : (dirMachine n depth i).Along (fun st call => call.Room i st) st calls)
    (hrun : (dirMachine n depth i).run st calls = some (replies, st')) :
    DirIsMap n depth i st' (mapOf (calls.zip replies)) :=
  (hst.inv.run halong hrun).isMap

theorem exists_unusedDir : ∃ inodes i st, UnusedDir 8 inodes i st ∧
    HasRoom st.world.disk i st.world.mem.freeMap.freeCnt := by
  obtain ⟨-, -, w', s, -, -, -, hok, hne, hlen, hcnt⟩ := exists_emptyInode true
  have hempty : dirEntries w'.disk s = [] := by
    rw [dirEntries, dirEntriesFrom, hlen]
    rfl
  refine ⟨_, s, ⟨w', 0⟩, ⟨hok, .head _, hne, ?_, rfl⟩, .inr ?_⟩
  · rw [hempty]
    exact List.forall_mem_nil _
  · rw [slots, hempty, blocks, hlen]
    exact ⟨by decide, show 1 ≤ w'.mem.freeMap.freeCnt by omega⟩

/-- A name is added to a directory, found, and removed again. -/
theorem directory_is_map_removed : ∃ inodes i st st', UnusedDir 8 inodes i st ∧
    (dirMachine 8 0 i).run st [.add ⟨0, Block.fill 512 0, 0⟩ (List.replicate 20 0) [97] 5,
        .lookup ⟨0, Block.fill 512 0, 0⟩ [97], .remove ⟨0, Block.fill 512 0, 0⟩ [97]]
      = some ([.added true, .found (some 5), .removed true], st') ∧
    ∃ m, DirIsMap 8 0 i st' m ∧ m [97] = none := by
  obtain ⟨inodes, i, st, hst, hroom⟩ := exists_unusedDir
  have hmap : DirIsMap 8 0 i st fun _ => none := hst.inv.isMap
  obtain ⟨success, st', hstep, hiff, -⟩ := hmap.add ⟨0, Block.fill 512 0, 0⟩
    (List.replicate 20 0) [97] 5 ⟨rfl, by decide, by decide⟩ hroom
  obtain rfl : success = true := by
    rw [← Bool.not_eq_false, hiff]
    decide
  have halong : (dirMachine 8 0 i).Along (fun st call => call.Room i st) st
      [.add ⟨0, Block.fill 512 0, 0⟩ (List.replicate 20 0) [97] 5,
        .lookup ⟨0, Block.fill 512 0, 0⟩ [97], .remove ⟨0, Block.fill 512 0, 0⟩ [97]] :=
    ⟨hroom, fun _ _ _ => ⟨trivial, fun _ _ _ => ⟨trivial, fun _ _ _ => trivial⟩⟩⟩
  have hadded := directory_is_map hst (.initial (List.prefix_append [_] _) halong)
    (Machine.run_singleton hstep)
  have hfound := hadded.lookup ⟨0, Block.fill 512 0, 0⟩ [97] (by decide)
  obtain ⟨success, st'', hremove, hiff⟩ := hadded.remove ⟨0, Block.fill 512 0, 0⟩ [97] (by decide)
  obtain rfl : success = true := by
    rw [← Bool.not_eq_false, hiff]
    decide
  have hrun := Machine.run_cons_of_step hstep
    (Machine.run_cons_of_step hfound (Machine.run_singleton hremove))
  exact ⟨inodes, i, st, st'', hst, hrun, _, directory_is_map hst halong hrun, by decide⟩

end Pintos
