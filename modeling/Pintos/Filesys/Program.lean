import Pintos.Filesys.Cache

/-!
# Programs over the buffer cache

Everything above the buffer cache, from `free_map_allocate` to `filesys_create`, touches the disk
only by `cache_read`, `cache_write` and `find_cache`.  Such a routine is modelled here as a
*program* `Prog σ α`: a tree of cache accesses and of accesses to the kernel's own variables `σ`,
with a value of type `α` at its leaves.

* `Prog.exec` runs a program on an array of sectors.  It gives `none` where the kernel would panic:
  an access off the disk (the assertion of `select_sector`), one that leaves its sector, or an
  assertion of the routine itself.
* `Prog.execCached` runs the same program on the buffer cache as `cache.c` has it.
* `Prog.execCached_sim` says that the two agree, so every result about the first is one about the
  second.  It contains the assertion of `inode_read_at` that a sector just accessed is still found
  in the cache (`CacheState.pinned_sim`), for one thread running alone.  `Prog.exec_flushed` is
  about the disk once the cache is flushed.

`Prog.exec_bind` and its companions are the rules by which the proofs further on execute programs
symbolically.  `Prog.Reads` programs only read the disk, `Prog.Silent` ones do not touch the
kernel's variables, `Prog.Safe` says that all accesses are inside the disk, `Prog.Refines` compares
two programs of which the first fails more often, and `Prog.Agree` says that from some state it does
not.
-/

namespace Pintos

open Bytes

/-- A routine above the cache, with kernel variables `σ` and result `α`. -/
inductive Prog (σ α : Type) where
  /-- Return. -/
  | ret (a : α)
  /-- `cache_read`.  With `pin`, the sector is looked up again afterwards by `find_cache`, must be
  there, and has its `open_cnt` taken down. -/
  | read (pin : Bool) (secNo ofs size : Nat) (k : List UInt8 → Prog σ α)
  /-- `cache_write`, with `pin` as for a read. -/
  | write (pin : Bool) (secNo ofs : Nat) (src : List UInt8) (k : Prog σ α)
  /-- A `find_cache` whose result is not used. -/
  | find (secNo : Nat) (k : Prog σ α)
  /-- Read the kernel's variables. -/
  | get (k : σ → Prog σ α)
  /-- Store the kernel's variables. -/
  | set (m : σ) (k : Prog σ α)
  /-- A failed assertion. -/
  | fail

/-- The kernel's variables, and the sectors below the cache. -/
structure World (σ : Type) where
  mem : σ
  disk : Disk

/-- The kernel's variables, and the cache with the disk under it. -/
structure CachedWorld (σ : Type) where
  mem : σ
  cache : CacheState

namespace Prog

variable {σ α β : Type}

/-- One program after another. -/
def bind : Prog σ α → (α → Prog σ β) → Prog σ β
  | .ret a, f => f a
  | .read pin secNo ofs size k, f => .read pin secNo ofs size fun bs => (k bs).bind f
  | .write pin secNo ofs src k, f => .write pin secNo ofs src (k.bind f)
  | .find secNo k, f => .find secNo (k.bind f)
  | .get k, f => .get fun m => (k m).bind f
  | .set m k, f => .set m (k.bind f)
  | .fail, _ => .fail

instance : Monad (Prog σ) where
  pure := .ret
  bind := Prog.bind

/-! ## Running on an array of sectors -/

/-- Run a program on a disk of `capacity` sectors, which stops at an access past the last one. -/
def exec (capacity : Nat) : Prog σ α → World σ → Option (α × World σ)
  | .ret a, w => some (a, w)
  | .read _ secNo ofs size k, w =>
    if secNo < capacity ∧ ofs + size ≤ 512 then (k ((w.disk secNo).read ofs size)).exec capacity w
    else none
  | .write _ secNo ofs src k, w =>
    if secNo < capacity ∧ ofs + src.length ≤ 512 then
      k.exec capacity ⟨w.mem, Function.update w.disk secNo ((w.disk secNo).write ofs src)⟩
    else none
  | .find _ k, w => k.exec capacity w
  | .get k, w => (k w.mem).exec capacity w
  | .set m k, w => k.exec capacity ⟨m, w.disk⟩
  | .fail, _ => none

section Rules

variable {n : Nat} {w : World σ}

@[simp] theorem exec_pure (a : α) : (pure a : Prog σ α).exec n w = some (a, w) := rfl

@[simp] theorem exec_fail : (fail : Prog σ α).exec n w = none := rfl

/-- **Sequencing.**  The second program runs where the first one ends. -/
theorem exec_bind (p : Prog σ α) (f : α → Prog σ β) :
    (p >>= f).exec n w = (p.exec n w).bind fun r => (f r.1).exec n r.2 := by
  show (p.bind f).exec n w = _
  induction p generalizing w with
  | ret a => rfl
  | read pin secNo ofs size k ih =>
    simp only [Prog.bind, exec]
    split
    · exact ih _
    · rfl
  | write pin secNo ofs src k ih =>
    simp only [Prog.bind, exec]
    split
    · exact ih
    · rfl
  | find secNo k ih => exact ih
  | get k ih => exact ih _
  | set m k ih => exact ih
  | fail => rfl

variable {p : Prog σ α} {f : α → Prog σ β}

theorem exec_bind_of_eq {a : α} {w' : World σ} (h : p.exec n w = some (a, w')) :
    (p >>= f).exec n w = (f a).exec n w' := by
  rw [exec_bind, h, Option.bind_some]

theorem exec_bind_eq_some {r : β × World σ} (h : (p >>= f).exec n w = some r) :
    ∃ a w', p.exec n w = some (a, w') ∧ (f a).exec n w' = some r := by
  rw [exec_bind, Option.bind_eq_some_iff] at h
  obtain ⟨⟨a, w'⟩, hp, hf⟩ := h
  exact ⟨a, w', hp, hf⟩

end Rules

/-! ## The accesses -/

/-- `cache_read`. -/
def cacheRead (secNo ofs size : Nat) : Prog σ (List UInt8) := .read false secNo ofs size .ret

/-- `cache_write`. -/
def cacheWrite (secNo ofs : Nat) (src : List UInt8) : Prog σ Unit :=
  .write false secNo ofs src (.ret ())

/-- `cache_read`, and then `find_cache` on the same sector, to take down `open_cnt`. -/
def cacheReadPinned (secNo ofs size : Nat) : Prog σ (List UInt8) := .read true secNo ofs size .ret

/-- `cache_write`, and then `find_cache` on the same sector, to take down `open_cnt`. -/
def cacheWritePinned (secNo ofs : Nat) (src : List UInt8) : Prog σ Unit :=
  .write true secNo ofs src (.ret ())

/-- `find_cache`. -/
def findCache (secNo : Nat) : Prog σ Unit := .find secNo (.ret ())

/-- The kernel's variables. -/
def getMem : Prog σ σ := .get .ret

/-- Store the kernel's variables. -/
def setMem (m : σ) : Prog σ Unit := .set m (.ret ())

/-- `cache_read` of a whole sector into a structure of its size. -/
def readSector (secNo : Nat) : Prog σ Sector := do
  let bs ← cacheRead secNo 0 512
  return (Block.fill 512 0).write 0 bs

/-- `cache_write` of a whole sector. -/
def writeSector (secNo : Nat) (b : Sector) : Prog σ Unit := cacheWrite secNo 0 (b.read 0 512)

/-- `cache_read` of a `disk_sector_t` at index `k` of the sector. -/
def readWord (secNo k : Nat) : Prog σ Nat := do
  let bs ← cacheRead secNo (4 * k) 4
  return ofLe bs

/-- `cache_write` of a `disk_sector_t` at index `k` of the sector. -/
def writeWord (secNo k v : Nat) : Prog σ Unit := cacheWrite secNo (4 * k) (le32 v)

section Rules

variable {n secNo : Nat} {w : World σ}

@[simp] theorem exec_getMem : (getMem : Prog σ σ).exec n w = some (w.mem, w) := rfl

@[simp] theorem exec_setMem (m : σ) :
    (setMem m : Prog σ Unit).exec n w = some ((), ⟨m, w.disk⟩) := rfl

@[simp] theorem exec_findCache : (findCache secNo : Prog σ Unit).exec n w = some ((), w) := rfl

variable {ofs size : Nat}

section

variable (hs : secNo < n) {k : Nat}
include hs

theorem exec_cacheRead (ho : ofs + size ≤ 512) :
    (cacheRead secNo ofs size : Prog σ _).exec n w
      = some ((w.disk secNo).read ofs size, w) := by
  simp only [cacheRead, exec, if_pos (And.intro hs ho)]

theorem exec_cacheReadPinned (ho : ofs + size ≤ 512) :
    (cacheReadPinned secNo ofs size : Prog σ _).exec n w
      = some ((w.disk secNo).read ofs size, w) := by
  simp only [cacheReadPinned, exec, if_pos (And.intro hs ho)]

theorem exec_cacheWritePinned {src : List UInt8} (ho : ofs + src.length ≤ 512) :
    (cacheWritePinned secNo ofs src : Prog σ _).exec n w
      = some ((), ⟨w.mem, Function.update w.disk secNo ((w.disk secNo).write ofs src)⟩) := by
  simp only [cacheWritePinned, exec, if_pos (And.intro hs ho)]

theorem exec_readSector : (readSector secNo : Prog σ _).exec n w = some (w.disk secNo, w) := by
  rw [readSector, exec_bind_of_eq (exec_cacheRead hs (by decide)), exec_pure, Block.write_read_full]

theorem exec_writeSector (b : Sector) :
    (writeSector secNo b : Prog σ _).exec n w
      = some ((), ⟨w.mem, Function.update w.disk secNo b⟩) := by
  have hlen : secNo < n ∧ 0 + (b.read 0 512).length ≤ 512 := ⟨hs, by simp⟩
  simp only [writeSector, cacheWrite, exec, if_pos hlen, Block.write_read_full]

theorem exec_readWord (hk : k < 128) :
    (readWord secNo k : Prog σ _).exec n w = some ((w.disk secNo).word k, w) := by
  rw [readWord, exec_bind_of_eq (exec_cacheRead hs (by omega))]
  rfl

theorem exec_writeWord (hk : k < 128) (v : Nat) :
    (writeWord secNo k v : Prog σ _).exec n w
      = some ((), ⟨w.mem, Function.update w.disk secNo
          ((w.disk secNo).write (4 * k) (le32 v))⟩) := by
  have hlen : secNo < n ∧ 4 * k + (le32 v).length ≤ 512 := ⟨hs, by rw [length_le32]; omega⟩
  simp only [writeWord, cacheWrite, exec, if_pos hlen]

end

end Rules

/-! ## What programs touch -/

/-- The program only reads the disk. -/
def Reads : Prog σ α → Prop
  | .ret _ | .fail => True
  | .read _ _ _ _ k => ∀ bs, (k bs).Reads
  | .find _ k => k.Reads
  | .write _ _ _ _ _ | .get _ | .set _ _ => False

variable {p : Prog σ α} {f : α → Prog σ β}

theorem Reads.bind (hp : p.Reads) (hf : ∀ a, (f a).Reads) : (p >>= f).Reads := by
  induction p with
  | ret a => exact hf a
  | read pin secNo ofs size k ih => exact fun bs => ih bs (hp bs)
  | find secNo k ih => exact ih hp
  | write | get | set => exact hp.elim
  | fail => trivial

theorem Reads.exec (hp : p.Reads) {n : Nat} {w w' : World σ} {a : α}
    (hexec : p.exec n w = some (a, w')) : w' = w := by
  induction p with
  | ret a =>
    cases hexec
    rfl
  | read pin secNo ofs size k ih =>
    obtain ⟨-, hexec⟩ := Option.ite_none_right_eq_some.mp hexec
    exact ih _ (hp _) hexec
  | find secNo k ih => exact ih hp hexec
  | write | get | set => exact hp.elim
  | fail => nomatch hexec

/-- The program does not touch the kernel's variables. -/
def Silent : Prog σ α → Prop
  | .ret _ | .fail => True
  | .read _ _ _ _ k => ∀ bs, (k bs).Silent
  | .write _ _ _ _ k | .find _ k => k.Silent
  | .get _ | .set _ _ => False

theorem Reads.silent (hp : p.Reads) : p.Silent := by
  induction p with
  | ret a => trivial
  | read pin secNo ofs size k ih => exact fun bs => ih bs (hp bs)
  | find secNo k ih => exact ih hp
  | write | get | set => exact hp.elim
  | fail => trivial

theorem Silent.exec (hp : p.Silent) (n : Nat) (m m' : σ) (d : Disk) :
    p.exec n ⟨m', d⟩ = (p.exec n ⟨m, d⟩).map fun r => (r.1, ⟨m', r.2.disk⟩) := by
  induction p generalizing d with
  | ret a => rfl
  | read pin secNo ofs size k ih =>
    rw [Prog.exec, Prog.exec]
    split
    · exact ih _ (hp _) d
    · rfl
  | write pin secNo ofs src k ih =>
    rw [Prog.exec, Prog.exec]
    split
    · exact ih hp _
    · rfl
  | find secNo k ih => exact ih hp d
  | get | set => exact hp.elim
  | fail => rfl

/-- Every access that the program makes, run from `w`, is to a sector of the disk, moves at least
one byte, and stays inside the sector; and no assertion fails. -/
def Safe (capacity : Nat) : Prog σ α → World σ → Prop
  | .ret _, _ => True
  | .read _ secNo ofs size k, w =>
    (secNo < capacity ∧ 1 ≤ size ∧ ofs + size ≤ 512) ∧
      (k ((w.disk secNo).read ofs size)).Safe capacity w
  | .write _ secNo ofs src k, w =>
    (secNo < capacity ∧ 1 ≤ src.length ∧ ofs + src.length ≤ 512) ∧
      k.Safe capacity ⟨w.mem, Function.update w.disk secNo ((w.disk secNo).write ofs src)⟩
  | .find _ k, w => k.Safe capacity w
  | .get k, w => (k w.mem).Safe capacity w
  | .set m k, w => k.Safe capacity ⟨m, w.disk⟩
  | .fail, _ => False

/-- No access of the program is empty. -/
def Sized : Prog σ α → Prop
  | .ret _ | .fail => True
  | .read _ _ _ size k => 1 ≤ size ∧ ∀ bs, (k bs).Sized
  | .write _ _ _ src k => 1 ≤ src.length ∧ k.Sized
  | .find _ k | .set _ k => k.Sized
  | .get k => ∀ m, (k m).Sized

theorem Sized.bind (hp : p.Sized) (hf : ∀ a, (f a).Sized) : (p >>= f).Sized := by
  induction p with
  | ret a => exact hf a
  | read pin secNo ofs size k ih => exact ⟨hp.1, fun bs => ih bs (hp.2 bs)⟩
  | write pin secNo ofs src k ih => exact ⟨hp.1, ih hp.2⟩
  | find secNo k ih => exact ih hp
  | get k ih => exact fun m => ih m (hp m)
  | set m k ih => exact ih hp
  | fail => trivial

/-- **Such a program is safe where it does not panic.** -/
theorem Sized.safe_iff (hp : p.Sized) (n : Nat) (w : World σ) :
    p.Safe n w ↔ (p.exec n w).isSome := by
  induction p generalizing w with
  | ret a => simp [Safe, Prog.exec]
  | read pin secNo ofs size k ih =>
    rw [Safe, Prog.exec, ih _ (hp.2 _)]
    split
    · rename_i h
      exact and_iff_right ⟨h.1, hp.1, h.2⟩
    · rename_i h
      simp only [Option.isSome_none, Bool.false_eq_true, iff_false]
      exact fun hs => h ⟨hs.1.1, hs.1.2.2⟩
  | write pin secNo ofs src k ih =>
    rw [Safe, Prog.exec, ih hp.2]
    split
    · rename_i h
      exact and_iff_right ⟨h.1, hp.1, h.2⟩
    · rename_i h
      simp only [Option.isSome_none, Bool.false_eq_true, iff_false]
      exact fun hs => h ⟨hs.1.1, hs.1.2.2⟩
  | find secNo k ih => exact ih hp w
  | get k ih => exact ih _ (hp _) w
  | set m k ih => exact ih hp _
  | fail => simp [Safe]

/-- From kernel variables that meet `I`, the second program does what the first one does, wherever
that returns, and the variables meet `I` again.  With one program for both, `I` is an invariant of
it; with a trivial `I`, the first is the second with more assertions. -/
def Refines (n : Nat) (I : σ → Prop) (p q : Prog σ α) : Prop :=
  ∀ w r, I w.mem → p.exec n w = some r → q.exec n w = some r ∧ I r.2.mem

section Refines

variable {n : Nat} {I : σ → Prop}

theorem Refines.pure (a : α) : Refines n I (pure a) (pure a) := fun w r hw h => by
  rw [exec_pure, Option.some_inj] at h
  exact ⟨by rw [exec_pure, h], h ▸ hw⟩

theorem Refines.fail (q : Prog σ α) : Refines n I .fail q := fun _ _ _ h => nomatch h

theorem Refines.bind {p q : Prog σ α} {f g : α → Prog σ β} (hp : Refines n I p q)
    (hf : ∀ a, Refines n I (f a) (g a)) : Refines n I (p >>= f) (q >>= g) := fun w r hw h => by
  obtain ⟨a, w', hp', hf'⟩ := exec_bind_eq_some h
  obtain ⟨hq, hw'⟩ := hp w _ hw hp'
  rw [exec_bind_of_eq hq]
  exact hf a w' r hw' hf'

theorem Refines.getMem_bind {f g : σ → Prog σ α} (hf : ∀ m, I m → Refines n I (f m) (g m)) :
    Refines n I (getMem >>= f) (getMem >>= g) := fun w r hw h => hf w.mem hw w r hw h

theorem Refines.setMem {m : σ} (hm : I m) : Refines n I (setMem m) (setMem m) := fun w r _ h => by
  rw [exec_setMem, Option.some_inj] at h
  exact ⟨by rw [exec_setMem, h], h ▸ hm⟩

theorem Silent.refines {p : Prog σ α} (hp : p.Silent) : Refines n I p p := fun w r hw h => by
  refine ⟨h, ?_⟩
  have hmap := hp.exec n w.mem w.mem w.disk
  rw [h, Option.map_some, Option.some_inj] at hmap
  rw [hmap]
  exact hw

end Refines

/-- A relation that holds of two programs if it holds of their parts: of the same accesses that read
the disk, and of what follows them. -/
structure Lifts (P : ∀ α : Type, Prog σ α → Prog σ α → Prop) : Prop where
  pure : ∀ {α : Type} (a : α), P α (pure a) (pure a)
  fail : ∀ {α : Type}, P α .fail .fail
  bind : ∀ {α β : Type} {p q : Prog σ α} {f g : α → Prog σ β}, P α p q → (∀ a, P β (f a) (g a)) →
    P β (p >>= f) (q >>= g)
  read : ∀ pin secNo ofs size, 1 ≤ size →
    P _ (.read pin secNo ofs size .ret) (.read pin secNo ofs size .ret)
  find : ∀ secNo, P _ (findCache secNo) (findCache secNo)

/-- The same, with the accesses that write. -/
structure LiftsWrites (P : ∀ α : Type, Prog σ α → Prog σ α → Prop) : Prop extends Lifts P where
  write : ∀ pin secNo ofs src, 1 ≤ src.length →
    P _ (.write pin secNo ofs src (.ret ())) (.write pin secNo ofs src (.ret ()))

theorem lifts_reads : Lifts (σ := σ) fun _ p _ => p.Reads :=
  ⟨fun _ => trivial, trivial, Reads.bind, fun _ _ _ _ _ _ => trivial, fun _ => trivial⟩

theorem lifts_sized : LiftsWrites (σ := σ) fun _ p _ => p.Sized :=
  ⟨⟨fun _ => trivial, trivial, Sized.bind, fun _ _ _ _ h => ⟨h, fun _ => trivial⟩,
    fun _ => trivial⟩, fun _ _ _ _ h => ⟨h, trivial⟩⟩

theorem lifts_refines (n : Nat) (I : σ → Prop) : LiftsWrites fun _ => Refines n I :=
  ⟨⟨.pure, .fail _, .bind, fun _ _ _ _ _ => Silent.refines fun _ => trivial,
    fun _ => Silent.refines trivial⟩, fun _ _ _ _ _ => Silent.refines trivial⟩

section Lifts

variable {P : ∀ α : Type, Prog σ α → Prog σ α → Prop}

theorem Lifts.readWord (hP : Lifts P) (secNo k : Nat) :
    P _ (Prog.readWord secNo k) (Prog.readWord secNo k) :=
  hP.bind (hP.read _ _ _ _ (by decide)) fun _ => hP.pure _

theorem Lifts.readSector (hP : Lifts P) (secNo : Nat) :
    P _ (Prog.readSector secNo) (Prog.readSector secNo) :=
  hP.bind (hP.read _ _ _ _ (by decide)) fun _ => hP.pure _

theorem LiftsWrites.writeWord (hP : LiftsWrites P) (secNo k v : Nat) :
    P _ (Prog.writeWord secNo k v) (Prog.writeWord secNo k v) :=
  hP.write _ _ _ _ (by rw [length_le32]; decide)

theorem LiftsWrites.writeSector (hP : LiftsWrites P) (secNo : Nat) (b : Sector) :
    P _ (Prog.writeSector secNo b) (Prog.writeSector secNo b) :=
  hP.write _ _ _ _ (by rw [Block.length_read]; decide)

end Lifts

/-- From `w` the two programs do the same, and what they return and leave meets `Q`. -/
def Agree (n : Nat) (p q : Prog σ α) (w : World σ) (Q : α → World σ → Prop) : Prop :=
  p.exec n w = q.exec n w ∧ ∀ a w', q.exec n w = some (a, w') → Q a w'

section Agree

variable {n : Nat} {I : σ → Prop} {w : World σ} {Q : α → World σ → Prop}

theorem Agree.fail : Agree n .fail .fail w Q :=
  ⟨rfl, fun _ _ h => nomatch h⟩

variable {p q : Prog σ α}

theorem Refines.agree (h : Refines n I p q) (hw : I w.mem) {a : α} {w' : World σ}
    (hexec : p.exec n w = some (a, w')) (hQ : I w'.mem → Q a w') : Agree n p q w Q := by
  obtain ⟨hq, hI⟩ := h w _ hw hexec
  refine ⟨hexec.trans hq.symm, fun a' w'' h' => ?_⟩
  rw [hq, Option.some_inj, Prod.mk.injEq] at h'
  rw [← h'.1, ← h'.2]
  exact hQ hI

theorem Agree.bind {f g : α → Prog σ β} {P : α → World σ → Prop} {Q : β → World σ → Prop}
    (hp : Agree n p q w P) (hf : ∀ a w', P a w' → Agree n (f a) (g a) w' Q) :
    Agree n (p >>= f) (q >>= g) w Q := by
  refine ⟨?_, fun b w'' h => ?_⟩
  · rw [exec_bind, exec_bind, hp.1]
    rcases hq : q.exec n w with _ | ⟨a, w'⟩
    · rfl
    · exact (hf a w' (hp.2 a w' hq)).1
  · obtain ⟨a, w', hq, hg⟩ := exec_bind_eq_some h
    exact (hf a w' (hp.2 a w' hq)).2 b w'' hg

end Agree

end Prog

/-! ## Running on the cache -/

namespace CacheState

/-- The `find_cache` after an access, whose result must be there and loses one from `open_cnt`. -/
def unpin (s : CacheState) (secNo : Nat) : Option CacheState :=
  (s.findCache secNo).map fun r => r.2.setBack { r.1 with openCnt := r.1.openCnt - 1 }

/-- An access, followed by the look-up that `pin` asks for. -/
def pinned (pin : Bool) (secNo : Nat) (s : CacheState) : Option CacheState :=
  if pin then s.unpin secNo else some s

variable {s : CacheState} {ref : Disk} {l : List Cache} {secNo : Nat}

theorem extract_isSome_of_mem (h : secNo ∈ l.map Cache.sectorIdx) : (extract secNo l).isSome := by
  rw [Option.isSome_iff_ne_none]
  exact fun hn => extract_eq_none hn h

variable {c : Cache} {d : Disk} {k : Nat}

theorem findCache_isSome_of_back :
    ((⟨l ++ [c], d, k⟩ : CacheState).findCache c.sectorIdx).isSome := by
  rw [findCache, Option.isSome_map]
  exact extract_isSome_of_mem (by simp)

theorem cacheRead_back (fresh : Nat → Sector) (h : s.Sim ref) (secNo ofs size : Nat) :
    ∃ l c d k, (s.cacheRead fresh secNo ofs size).2 = ⟨l ++ [c], d, k⟩ ∧ c.sectorIdx = secNo := by
  rw [cacheRead]
  rcases hf : findCache s secNo with _ | ⟨c, s'⟩
  · exact ⟨_, _, _, _, rfl, rfl⟩
  · obtain ⟨rest, rfl, hcs, -⟩ := findCache_eq_some h hf
    exact ⟨_, _, _, _, rfl, hcs⟩

theorem cacheWrite_back (fresh : Nat → Sector) (h : s.Sim ref) (secNo ofs : Nat)
    (src : List UInt8) :
    ∃ l c d k, s.cacheWrite fresh secNo ofs src = ⟨l ++ [c], d, k⟩ ∧ c.sectorIdx = secNo := by
  rw [cacheWrite]
  rcases hf : findCache s secNo with _ | ⟨c, s'⟩
  · dsimp only
    split <;> exact ⟨_, _, _, _, rfl, rfl⟩
  · obtain ⟨rest, rfl, hcs, -⟩ := findCache_eq_some h hf
    exact ⟨_, _, _, _, rfl, hcs⟩

/-- **A sector just accessed is still cached**, and looking it up changes nothing that the cache
stands for. -/
theorem pinned_sim (h : s.Sim ref) (pin : Bool) (hs : s = ⟨l ++ [c], d, k⟩)
    (hc : c.sectorIdx = secNo) : ∃ s', s.pinned pin secNo = some s' ∧ s'.Sim ref := by
  cases pin with
  | false => exact ⟨s, rfl, h⟩
  | true =>
    have hfound : (s.findCache secNo).isSome := by
      rw [hs, ← hc]
      exact findCache_isSome_of_back
    obtain ⟨⟨c', s'⟩, hf⟩ := Option.isSome_iff_exists.mp hfound
    obtain ⟨rest, hs', hcs, hbuf, hsim⟩ := findCache_eq_some h hf
    refine ⟨s'.setBack { c' with openCnt := c'.openCnt - 1 }, ?_, ?_⟩
    · simp [pinned, unpin, hf]
    · subst hs'
      simp only [setBack_append]
      refine hsim.replace rfl ?_ (hsim.clean c' (by simp)) fun _ _ => rfl
      exact hcs.symm ▸ hbuf

end CacheState

namespace Prog

variable {σ α : Type}

/-- Run a program on the cache.  Buffers from `malloc` start with the contents `fresh` says.  The
sector number is checked at every access here.  In the source it is `disk_read` and `disk_write`
that check it: at a miss, and for a write of a whole sector not before that is written back. -/
def execCached (fresh : Nat → Sector) (capacity : Nat) :
    Prog σ α → CachedWorld σ → Option (α × CachedWorld σ)
  | .ret a, w => some (a, w)
  | .read pin secNo ofs size k, w =>
    if secNo < capacity ∧ ofs + size ≤ 512 then
      let r := w.cache.cacheRead fresh secNo ofs size
      (r.2.pinned pin secNo).bind fun c => (k r.1).execCached fresh capacity ⟨w.mem, c⟩
    else none
  | .write pin secNo ofs src k, w =>
    if secNo < capacity ∧ ofs + src.length ≤ 512 then
      ((w.cache.cacheWrite fresh secNo ofs src).pinned pin secNo).bind fun c =>
        k.execCached fresh capacity ⟨w.mem, c⟩
    else none
  | .find secNo k, w =>
    k.execCached fresh capacity ⟨w.mem, (w.cache.findCache secNo).elim w.cache Prod.snd⟩
  | .get k, w => (k w.mem).execCached fresh capacity w
  | .set m k, w => k.execCached fresh capacity ⟨m, w.cache⟩
  | .fail, _ => none

/-- **Programs do not see the cache.**  On a cache that stands for an array of sectors, a program
does what it does on the array: it panics on both or on neither, returns the same value, leaves the
same kernel variables, and the cache stands for the array it leaves. -/
theorem execCached_sim (fresh : Nat → Sector) (capacity : Nat) (p : Prog σ α) :
    ∀ (m : σ) {c : CacheState} {d : Disk}, c.Sim d →
      Option.Rel (fun r q => r.1 = q.1 ∧ r.2.mem = q.2.mem ∧ r.2.cache.Sim q.2.disk)
        (p.execCached fresh capacity ⟨m, c⟩) (p.exec capacity ⟨m, d⟩) := by
  induction p with
  | ret a => exact fun m c d h => .some ⟨rfl, rfl, h⟩
  | read pin secNo ofs size k ih =>
    intro m c d h
    simp only [execCached, exec]
    split
    · obtain ⟨hout, hsim⟩ := CacheState.cacheRead_sim fresh h secNo ofs size
      obtain ⟨l, e, d', j, hback, he⟩ := CacheState.cacheRead_back fresh h secNo ofs size
      obtain ⟨c', hc', hsim'⟩ := CacheState.pinned_sim hsim pin hback he
      rw [hc', Option.bind_some, hout]
      exact ih _ m hsim'
    · exact .none
  | write pin secNo ofs src k ih =>
    intro m c d h
    simp only [execCached, exec]
    split
    · rename_i hok
      have hsim := CacheState.cacheWrite_sim fresh h secNo hok.2
      obtain ⟨l, e, d', j, hback, he⟩ := CacheState.cacheWrite_back fresh h secNo ofs src
      obtain ⟨c', hc', hsim'⟩ := CacheState.pinned_sim hsim pin hback he
      rw [hc']
      exact ih m hsim'
    · exact .none
  | find secNo k ih => exact fun m c d h => ih m (CacheState.findCache_sim h secNo)
  | get k ih => exact fun m c d h => ih m m h
  | set m' k ih => exact fun m c d h => ih m' h
  | fail => exact fun m c d h => .none

/-- **What a program leaves on the disk.**  On an empty cache that `destroy_cache_list` then writes
back, a program panics exactly if it does on the disk itself, and otherwise it returns the same and
leaves the same kernel variables and the same disk. -/
theorem exec_flushed (fresh : Nat → Sector) (capacity : Nat) (p : Prog σ α) (m : σ) (d : Disk) :
    (p.execCached fresh capacity ⟨m, .cacheInit d⟩).map
        (fun r => (r.1, (⟨r.2.mem, r.2.cache.destroyCacheList.disk⟩ : World σ)))
      = p.exec capacity ⟨m, d⟩ := by
  have hsim := execCached_sim fresh capacity p m (CacheState.sim_cacheInit d)
  generalize p.execCached fresh capacity ⟨m, .cacheInit d⟩ = cached, p.exec capacity ⟨m, d⟩ = plain
    at hsim ⊢
  cases hsim with
  | none => rfl
  | some hrel =>
    obtain ⟨hout, hmem, hdisk⟩ := hrel
    rw [Option.map_some, hout, hmem, CacheState.destroyCacheList_sim hdisk]

end Prog

end Pintos
