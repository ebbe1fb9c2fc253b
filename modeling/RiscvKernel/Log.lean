import RiscvKernel.Bio

/-!
# The redo log

`log.c`: group commit, the on-disk header, and recovery. Each critical section of
`log.lock` is one section of a thread; `commit()` runs outside the lock and is a
sequence of sections of the buffer cache.
-/

namespace RiscvKernel

open Threads Function

variable {P : Type} [DecidableEq P]

/-- The loop of `write_head` that stores `block[i], block[i+1], …`. -/
def Block.putEntries (b : Block) : ℕ → List ℕ → Block
  | _, [] => b
  | i, n :: ns => (b.put (4 + 4 * i) 4 n).putEntries (i + 1) ns

/-- `struct logheader` stored over a block by `write_head`. -/
def Block.encodeHead (b : Block) (lh : List ℕ) : Block :=
  (b.put 0 4 lh.length).putEntries 0 lh

/-- `lh->n` as the loops of `log.c` see it: a negative count runs no iteration. -/
def Block.headCount (b : Block) : ℕ := if b.num 0 4 < 2 ^ 31 then b.num 0 4 else 0

/-- The header that `read_head` finds in a block. -/
def Block.decodeHead (b : Block) : List ℕ :=
  (List.range b.headCount).map fun i => b.num (4 + 4 * i) 4

/-- `install_trans`, from entry `tail` on. -/
def installFrom (recovering : Bool) (dev start : ℕ) : ℕ → List ℕ → BioProg P Unit
  | _, [] => return ()
  | tail, b :: bs => do
    let lbuf ← bread dev (start + tail + 1)
    let dbuf ← bread dev b
    copyData dbuf lbuf
    bwrite dbuf
    if !recovering then bunpin dbuf
    brelse lbuf
    brelse dbuf
    installFrom recovering dev start (tail + 1) bs

/-- `install_trans`: copy the committed blocks from the log to their home location. -/
def installTrans (recovering : Bool) : BioProg P Unit := do
  let log ← .read Store.log
  installFrom recovering log.dev log.start 0 log.lh

/-- Set the in-memory header. -/
def Store.setHead (s : Store P) (lh : List ℕ) : Store P := { s with log := { s.log with lh := lh } }

section SetHead

omit [DecidableEq P]

@[simp] theorem setHead_writes (s : Store P) (lh : List ℕ) : (s.setHead lh).writes = s.writes := rfl

@[simp] theorem setHead_log (s : Store P) (lh : List ℕ) :
    (s.setHead lh).log = { s.log with lh := lh } := rfl

end SetHead

/-- `read_head`. -/
def readHead : BioProg P Unit := do
  let log ← .read Store.log
  let buf ← bread log.dev log.start
  .update fun _ s => ((), s.setHead (s.bufs buf).data.decodeHead)
  brelse buf

/-- `write_head`: the write of this block is the point at which a transaction commits. -/
def writeHead : BioProg P Unit := do
  let log ← .read Store.log
  let buf ← bread log.dev log.start
  modify buf (·.encodeHead log.lh)
  bwrite buf
  brelse buf

/-- `recover_from_log`. -/
def recoverFromLog : BioProg P Unit := do
  readHead
  installTrans true
  .update fun _ s => ((), s.setHead [])
  writeHead

/-- `write_log`, from entry `tail` on. -/
def writeLogFrom (dev start : ℕ) : ℕ → List ℕ → BioProg P Unit
  | _, [] => return ()
  | tail, b :: bs => do
    let dst ← bread dev (start + tail + 1)
    let src ← bread dev b
    copyData dst src
    bwrite dst
    brelse src
    brelse dst
    writeLogFrom dev start (tail + 1) bs

/-- `write_log`: copy the modified blocks from the cache to the log. -/
def writeLog : BioProg P Unit := do
  let log ← .read Store.log
  writeLogFrom log.dev log.start 0 log.lh

/-- `log.lh.n = 0`, with the history variables that count installed blocks. -/
def Store.clearHead (s : Store P) : Store P :=
  { s.setHead [] with oh := { s.oh with installed := 0 } }

/-- `commit`. -/
def commit : BioProg P Unit := do
  let log ← .read Store.log
  if log.lh.length > 0 then
    writeLog
    writeHead
    installTrans false
    .update fun _ s => ((), s.clearHead)
    writeHead

/-- `begin_op`. A process that finds the log committing or short of space sleeps and,
once woken, tests again. -/
def beginOp : BioProg P Unit :=
  .step fun p s =>
    if s.log.committing then .sleep .log () s []
    else if (s.log.lh.length : ℤ) + (s.log.outstanding + 1) * maxopblocks > logblocks then
      .sleep .log () s []
    else
      .done () { s with
        log := { s.log with outstanding := s.log.outstanding + 1 }
        oh := { s.oh with
          ops := p :: s.oh.ops
          opBlocks := update s.oh.opBlocks p [] } } []

/-- The history of an operation of `p` that ends. -/
def OpHistory.endOp (h : OpHistory P) (p : P) : OpHistory P :=
  { h with
    ops := h.ops.erase p
    ended := (p, h.opBlocks p) :: h.ended }

/-- The first critical section of `end_op`; it returns `do_commit`. -/
def endOpSection (p : P) (s : Store P) : Result (Store P) Chan Unit Bool :=
  let outstanding := s.log.outstanding - 1
  if s.log.committing then .panic "log.committing"
  else if outstanding = 0 then
    .done true { s with
      log := { s.log with outstanding := outstanding, committing := true }
      oh := { s.oh.endOp p with committer := some p, written := [] } } []
  else
    .done false { s with
      log := { s.log with outstanding := outstanding }
      oh := s.oh.endOp p } [.log]

/-- The second critical section of `end_op`, after `commit()`. -/
def Store.finishCommit (s : Store P) : Store P :=
  { s with
    log := { s.log with committing := false }
    oh := { s.oh with
      committer := none
      ended := []
      commits := ⟨s.oh.ended, s.oh.written⟩ :: s.oh.commits } }

/-- `end_op`: commit if this was the last outstanding operation. -/
def endOp : BioProg P Unit := do
  let doCommit ← .step endOpSection
  if doCommit then
    commit
    Prog.step fun _ s => .done () s.finishCommit [.log]

/-- The bookkeeping of a completed `log_write`. -/
def Store.logged (s : Store P) (p : P) (i : BufId) : Store P :=
  { s with
    ch := { s.ch with dirty := update s.ch.dirty i false }
    oh := { s.oh with
      opBlocks := update s.oh.opBlocks p ((s.bufs i).blockno :: s.oh.opBlocks p)
      logWrites := s.log.committing :: s.oh.logWrites } }

/-- `log_write`: record the block in the transaction, pinning it when it is new. -/
def logWrite (i : BufId) : BioProg P Unit :=
  .step fun p s =>
    let b := (s.bufs i).blockno
    if s.log.lh.length ≥ logblocks then .panic "too big a transaction"
    else if s.log.outstanding < 1 then .panic "log_write outside of trans"
    else if b ∈ s.log.lh then .done () (s.logged p i) []
    else .done () (((s.logged p i).bpin i).setHead (s.log.lh ++ [b])) []

end RiscvKernel
