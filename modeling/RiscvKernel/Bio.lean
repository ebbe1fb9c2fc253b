import RiscvKernel.Lib.Threads
import RiscvKernel.Block

/-!
# The buffer cache

`bio.c` over a disk on which one write changes one block. The buffers are an array,
the list through `next` and `prev` is a list of indices with the most recently used
buffer first. Each critical section of `bcache.lock`, each operation on the sleep-lock
of a buffer and each disk transfer is one section of a thread.

The state also holds the log of `log.c`, which shares the cache and the disk, and
history variables that no code reads.
-/

namespace RiscvKernel

open Threads Function

/-- An index into `bcache.buf`. -/
abbrev BufId := Fin nbuf

instance : NeZero nbuf := ⟨by decide⟩

/-- `struct buf`. The sleep-lock is represented by its holder. The counter is an
integer, so that an underflow would show as a negative value. -/
structure Buf (P : Type) where
  /-- Has the data been read from disk? -/
  valid : Bool
  /-- Device of the cached block. -/
  dev : ℕ
  /-- Number of the cached block. -/
  blockno : ℕ
  /-- Holder of the sleep-lock. -/
  lock : Option P
  /-- Reference count. -/
  refcnt : ℤ
  /-- Cached contents. -/
  data : Block

/-- `struct log`. The entries `block[0..n)` of the in-memory header are a list. -/
structure Log where
  /-- Block number of the on-disk header. -/
  start : ℕ
  /-- Device of the log. -/
  dev : ℕ
  /-- Number of system calls between `begin_op` and `end_op`. -/
  outstanding : ℤ
  /-- In `commit()`. -/
  committing : Bool
  /-- The block numbers of the current transaction. -/
  lh : List ℕ

/-- What one `commit()` did: the operations it closed with the blocks each of them
logged, and the blocks it wrote to the disk. -/
structure CommitRecord (P : Type) where
  /-- The operations that ended since the previous commit. -/
  ops : List (P × List ℕ)
  /-- The blocks written by this commit. -/
  written : List ℕ

/-- History variables of the cache. -/
structure CacheHistory (P : Type) where
  /-- The callers between `bget` and `brelse` of each buffer. -/
  users : BufId → List P
  /-- Data changed since the last `log_write` or `bwrite`. -/
  dirty : BufId → Bool
  /-- The data most recently stored for each block. -/
  latest : ℕ → Block

/-- History variables of the log. -/
structure OpHistory (P : Type) where
  /-- The processes between `begin_op` and `end_op`. -/
  ops : List P
  /-- The blocks each running operation has logged. -/
  opBlocks : P → List ℕ
  /-- The operations that ended since the last commit. -/
  ended : List (P × List ℕ)
  /-- The process running `commit()`. -/
  committer : Option P
  /-- The number of blocks the running `commit()` has installed and unpinned. -/
  installed : ℕ
  /-- The blocks the running `commit()` has written. -/
  written : List ℕ
  /-- The finished commits, latest first. -/
  commits : List (CommitRecord P)
  /-- For each completed `log_write`, latest first, whether `commit()` was running. -/
  logWrites : List Bool

/-- The state shared by the buffer cache, the log and the disk. -/
structure Store (P : Type) where
  /-- `bcache.buf`. -/
  bufs : BufId → Buf P
  /-- The buffers from `head.next` to `head.prev`. -/
  lru : List BufId
  /-- The disk. -/
  disk : ℕ → Block
  /-- The block writes issued so far, in order. -/
  writes : List (ℕ × Block)
  /-- The log. -/
  log : Log
  /-- History of the cache. -/
  ch : CacheHistory P
  /-- History of the log. -/
  oh : OpHistory P

/-- What a process can sleep on here: the log, or the sleep-lock of a buffer. -/
inductive Chan where
  | log
  | buf (i : BufId)
  deriving DecidableEq

/-- A program over the cache and the log. -/
abbrev BioProg (P : Type) := Prog P (Store P) Chan

variable {P : Type}

/-- Replace one buffer. -/
def Store.setBuf (s : Store P) (i : BufId) (b : Buf P) : Store P :=
  { s with bufs := update s.bufs i b }

/-- Replace the callers of one buffer. -/
def Store.setUsers (s : Store P) (i : BufId) (ps : List P) : Store P :=
  { s with ch := { s.ch with users := update s.ch.users i ps } }

/-- Buffer `b` caches block `blockno` of device `dev`. -/
def Buf.caches (dev blockno : ℕ) (b : Buf P) : Bool := b.dev == dev && b.blockno == blockno

/-- Which block a buffer is for. -/
theorem caches_iff {dev b : ℕ} {u : Buf P} :
    u.caches dev b = true ↔ u.dev = dev ∧ u.blockno = b := by
  simp [Buf.caches]

/-- Claim the buffer found or recycled by `bget`. -/
def Store.claim (s : Store P) (p : P) (i : BufId) (b : Buf P) : Store P :=
  (s.setBuf i b).setUsers i (p :: s.ch.users i)

/-- The critical section of `bget`: look for the block, else recycle the least
recently used buffer without references. -/
def bgetSection (dev blockno : ℕ) (p : P) (s : Store P) : Result (Store P) Chan Unit BufId :=
  match s.lru.find? fun i => (s.bufs i).caches dev blockno with
  | some i => .done i (s.claim p i { s.bufs i with refcnt := (s.bufs i).refcnt + 1 }) []
  | none =>
    match s.lru.reverse.find? fun i => (s.bufs i).refcnt == 0 with
    | some i =>
      .done i (s.claim p i { s.bufs i with
        dev := dev, blockno := blockno, valid := false, refcnt := 1 }) []
    | none => .panic "bget: no buffers"

/-- `acquiresleep(&b->lock)`. -/
def acquiresleep (i : BufId) : BioProg P Unit :=
  .step fun p s =>
    match (s.bufs i).lock with
    | some _ => .sleep (.buf i) () s []
    | none => .done () (s.setBuf i { s.bufs i with lock := some p }) []

/-- `bget`. -/
def bget (dev blockno : ℕ) : BioProg P BufId := do
  let i ← .step (bgetSection dev blockno)
  acquiresleep i
  return i

/-- `virtio_disk_rw(b, 0)`: read the block. The driver addresses the disk by block
number alone. -/
def virtioRead (i : BufId) : BioProg P Unit :=
  .update fun _ s =>
    ((), s.setBuf i { s.bufs i with data := s.disk (s.bufs i).blockno, valid := true })

/-- `bread`: a locked buffer with the contents of the block. -/
def bread (dev blockno : ℕ) : BioProg P BufId := do
  let i ← bget dev blockno
  let valid ← .read fun s => (s.bufs i).valid
  if !valid then virtioRead i
  return i

/-- The program of `bread` with the critical section of `bget` in front. -/
theorem bread_eq (dev b : ℕ) :
    (bread dev b : BioProg P BufId) = (Prog.step (bgetSection dev b) >>= fun i => do
      acquiresleep i
      let valid ← Prog.read fun s => (s.bufs i).valid
      if !valid then virtioRead i
      return i) := by
  simp [bread, bget, Prog.bind_assoc]

variable [DecidableEq P]

/-- `virtio_disk_rw(b, 1)`: the buffer's data reach the disk. -/
def Store.virtioWrite (s : Store P) (p : P) (i : BufId) : Store P :=
  let b := (s.bufs i).blockno
  { s with
    disk := update s.disk b (s.bufs i).data
    writes := s.writes ++ [(b, (s.bufs i).data)]
    ch := { s.ch with dirty := update s.ch.dirty i false }
    oh := { s.oh with
      written := if s.oh.committer = some p then b :: s.oh.written else s.oh.written } }

/-- `bwrite`. -/
def bwrite (i : BufId) : BioProg P Unit :=
  .step fun p s =>
    if (s.bufs i).lock = some p then .done () (s.virtioWrite p i) [] else .panic "bwrite"

/-- The critical section of `brelse`: drop the reference; an unused buffer moves to the
head of the list. -/
def Store.unref (s : Store P) (p : P) (i : BufId) : Store P :=
  let b := { s.bufs i with refcnt := (s.bufs i).refcnt - 1 }
  let s' := (s.setBuf i b).setUsers i ((s.ch.users i).erase p)
  if b.refcnt = 0 then { s' with lru := i :: s.lru.erase i } else s'

/-- `brelse`. -/
def brelse (i : BufId) : BioProg P Unit := do
  Prog.step fun p s =>
    if (s.bufs i).lock = some p then
      .done () (s.setBuf i { s.bufs i with lock := none }) [.buf i]
    else .panic "brelse"
  .update fun p s => ((), s.unref p i)

/-- `bpin`, run inside the section of `log_write`. -/
def Store.bpin (s : Store P) (i : BufId) : Store P :=
  s.setBuf i { s.bufs i with refcnt := (s.bufs i).refcnt + 1 }

/-- The section of `bunpin`. In `install_trans` it closes the installation of one block. -/
def Store.bunpin (s : Store P) (i : BufId) : Store P :=
  { s.setBuf i { s.bufs i with refcnt := (s.bufs i).refcnt - 1 } with
    oh := { s.oh with installed := s.oh.installed + 1 } }

/-- `bunpin`. -/
def bunpin (i : BufId) : BioProg P Unit := .update fun _ s => ((), s.bunpin i)

/-- Store new data in a buffer. -/
def Store.setData (s : Store P) (i : BufId) (d : Block) : Store P :=
  let s' := s.setBuf i { s.bufs i with data := d }
  { s' with ch := { s.ch with
      dirty := update s.ch.dirty i true
      latest := update s.ch.latest (s.bufs i).blockno d } }

/-- A holder changes the data of its buffer. -/
def modify (i : BufId) (f : Block → Block) : BioProg P Unit :=
  .update fun _ s => ((), s.setData i (f (s.bufs i).data))

/-- `memmove(to->data, from->data, BSIZE)`. -/
def copyData (dst src : BufId) : BioProg P Unit :=
  .update fun _ s => ((), s.setData dst (s.bufs src).data)

end RiscvKernel
