import RiscvKernel.CacheInv

/-!
# The contract of the processes that share the cache and the log

Any number of processes call `bread`, `bwrite`, `brelse`, `log_write`, `begin_op` and
`end_op`. The contract says what holds between two critical sections, what a section of
one process leaves alone for the others, and when a process may sleep. What a single
process knows about its own buffers and its own `commit()` is an assertion that the
contract makes stable.
-/

namespace RiscvKernel

open Threads Function

variable {P : Type}

/-- The invariant of the log. -/
structure GroupInv (lg : Log) (oh : OpHistory P) : Prop where
  /-- `outstanding` counts the processes between `begin_op` and `end_op`. -/
  outstanding : lg.outstanding = oh.ops.length
  /-- A process runs at most one operation. -/
  ops_nodup : oh.ops.Nodup
  /-- No block is listed twice. -/
  lh_nodup : lg.lh.Nodup
  /-- `committing` is set while `commit()` runs. -/
  committing : lg.committing = oh.committer.isSome
  /-- No operation is running during `commit()`. -/
  quiet : oh.committer ≠ none → oh.ops = []
  /-- Blocks are installed by `commit()` only. -/
  installed : oh.committer = none → oh.installed = 0
  /-- The last operation to end commits everything. -/
  empty : oh.committer = none → oh.ops = [] → lg.lh = []
  /-- The blocks of a running operation are listed. -/
  running : ∀ p ∈ oh.ops, ∀ b ∈ oh.opBlocks p, b ∈ lg.lh
  /-- The blocks of an ended operation are listed until `commit()` has written them. -/
  ended : ∀ e ∈ oh.ended, ∀ b ∈ e.2, b ∈ lg.lh ∨ (oh.committer ≠ none ∧ b ∈ oh.written)
  /-- Each finished commit wrote all blocks of the operations it closed. -/
  commits : ∀ r ∈ oh.commits, ∀ e ∈ r.ops, ∀ b ∈ e.2, b ∈ r.written
  /-- No `log_write` completed during `commit()`. -/
  logWrites : ∀ c ∈ oh.logWrites, c = false

/-- The invariant of the shared state, for a log on device `dev`. -/
structure StoreInv (dev : ℕ) (s : Store P) : Prop where
  /-- The device of the log. -/
  dev_eq : s.log.dev = dev
  /-- The cache and the disk agree. -/
  cache : CacheInv dev (s.log.lh.drop s.oh.installed) s.bufs s.lru s.disk s.ch
  /-- The log and its operations agree. -/
  group : GroupInv s.log s.oh

/-- `begin_op` has to wait. -/
def LogBusy (lg : Log) : Prop :=
  lg.committing = true ∨ (lg.lh.length : ℤ) + (lg.outstanding + 1) * maxopblocks > logblocks

/-- What a section of `q` leaves alone in the cache. -/
structure CacheGuar [DecidableEq P] (q : P) (s : Store P) (w : List Chan) (s' : Store P) :
    Prop where
  /-- The references of the other processes stay. -/
  count : ∀ p, p ≠ q → ∀ i, (s'.ch.users i).count p = (s.ch.users i).count p
  /-- A buffer in use by another process keeps its block. -/
  block : ∀ p, p ≠ q → ∀ i, p ∈ s.ch.users i →
    (s'.bufs i).dev = (s.bufs i).dev ∧ (s'.bufs i).blockno = (s.bufs i).blockno
  /-- The locks of the other processes stay. -/
  lock : ∀ p, p ≠ q → ∀ i, (s'.bufs i).lock = some p ↔ (s.bufs i).lock = some p
  /-- A buffer locked by another process keeps its contents, and so does its block on disk. -/
  held : ∀ p, p ≠ q → ∀ i, (s.bufs i).lock = some p →
    (s'.bufs i).valid = (s.bufs i).valid ∧ (s'.bufs i).data = (s.bufs i).data ∧
      s'.ch.dirty i = s.ch.dirty i ∧ s'.disk (s.bufs i).blockno = s.disk (s.bufs i).blockno
  /-- A lock is released with a wakeup. -/
  wait : ∀ i, .buf i ∉ w → (s.bufs i).lock ≠ none → (s'.bufs i).lock ≠ none

/-- What a section of `q` leaves alone in the log. -/
structure GroupGuar (q : P) (lg : Log) (oh : OpHistory P) (w : List Chan) (lg' : Log)
    (oh' : OpHistory P) : Prop where
  /-- The other processes stay in their operations. -/
  ops : ∀ p, p ≠ q → (p ∈ oh'.ops ↔ p ∈ oh.ops)
  /-- Nobody starts or ends the `commit()` of another process. -/
  committer : ∀ p, p ≠ q → (oh'.committer = some p ↔ oh.committer = some p)
  /-- The transaction that another process commits stays. -/
  view : ∀ p, p ≠ q → oh.committer = some p →
    lg'.start = lg.start ∧ lg'.lh = lg.lh ∧ oh'.installed = oh.installed ∧
      oh'.written = oh.written
  /-- The log becomes free with a wakeup. -/
  wait : Chan.log ∉ w → LogBusy lg → LogBusy lg'

theorem GroupGuar.refl (q : P) (lg : Log) (oh : OpHistory P) (w : List Chan) :
    GroupGuar q lg oh w lg oh :=
  ⟨fun _ _ => Iff.rfl, fun _ _ => Iff.rfl, fun _ _ _ => ⟨rfl, rfl, rfl, rfl⟩, fun _ h => h⟩

variable [DecidableEq P]

/-- A section that leaves the cache alone. -/
theorem CacheGuar.of_eq {q : P} {s s' : Store P} {w : List Chan} (hbufs : s'.bufs = s.bufs)
    (hdisk : s'.disk = s.disk) (hch : s'.ch = s.ch) : CacheGuar q s w s' := by
  refine ⟨?_, ?_, ?_, ?_, ?_⟩
  · intro p _ i
    rw [hch]
  · intro p _ i _
    rw [hbufs]
    exact ⟨rfl, rfl⟩
  · intro p _ i
    rw [hbufs]
  · intro p _ i _
    rw [hbufs, hdisk, hch]
    exact ⟨rfl, rfl, rfl, rfl⟩
  · intro i _ hl
    rwa [hbufs]

/-- A section of `q` that changes one buffer, and the disk only where no other process
holds the block. -/
theorem CacheGuar.touch {q : P} {s s' : Store P} {w : List Chan} {i : BufId} {u : Buf P}
    {l : List P} (hbufs : s'.bufs = update s.bufs i u)
    (husers : s'.ch.users = update s.ch.users i l)
    (hdirty : ∀ j, j ≠ i → s'.ch.dirty j = s.ch.dirty j)
    (hcount : ∀ p, p ≠ q → l.count p = (s.ch.users i).count p)
    (hblock : s.ch.users i = [] ∨ u.dev = (s.bufs i).dev ∧ u.blockno = (s.bufs i).blockno)
    (hlock : ∀ p, p ≠ q → (u.lock = some p ↔ (s.bufs i).lock = some p))
    (hheld : (∀ p, (s.bufs i).lock = some p → p = q) ∨ u.valid = (s.bufs i).valid ∧
      u.data = (s.bufs i).data ∧ s'.ch.dirty i = s.ch.dirty i)
    (hdisk : ∀ p, p ≠ q → ∀ j, (s.bufs j).lock = some p →
      s'.disk (s.bufs j).blockno = s.disk (s.bufs j).blockno)
    (hwait : .buf i ∉ w → (s.bufs i).lock ≠ none → u.lock ≠ none) : CacheGuar q s w s' := by
  refine ⟨?_, ?_, ?_, ?_, ?_⟩
  · intro p hp j
    by_cases hj : j = i
    · rw [hj, husers, update_self]
      exact hcount p hp
    · rw [husers, update_of_ne hj]
  · intro p hp j hmem
    by_cases hj : j = i
    · subst hj
      rw [hbufs, update_self]
      rcases hblock with hnil | hsame
      · rw [hnil] at hmem
        cases hmem
      · exact hsame
    · rw [hbufs, update_of_ne hj]
      exact ⟨rfl, rfl⟩
  · intro p hp j
    by_cases hj : j = i
    · rw [hj, hbufs, update_self]
      exact hlock p hp
    · rw [hbufs, update_of_ne hj]
  · intro p hp j hl
    by_cases hj : j = i
    · subst hj
      rw [hbufs, update_self]
      rcases hheld with hq | ⟨hv, hd, hdirty'⟩
      · exact absurd (hq p hl) hp
      · exact ⟨hv, hd, hdirty', hdisk p hp j hl⟩
    · rw [hbufs, update_of_ne hj]
      exact ⟨rfl, rfl, hdirty j hj, hdisk p hp j hl⟩
  · intro j hw hl
    by_cases hj : j = i
    · subst hj
      rw [hbufs, update_self]
      exact hwait hw hl
    · rwa [hbufs, update_of_ne hj]

/-- The contract. With `own` set, every process logs blocks only in its own operation. -/
def storeContract (P : Type) [DecidableEq P] (dev : ℕ) (own : Bool) :
    Contract P (Store P) Chan where
  ok _ := True
  inv := StoreInv dev
  guar q s w s' := CacheGuar q s w s' ∧ GroupGuar q s.log s.oh w s'.log s'.oh
  wait c s := match c with
    | .log => LogBusy s.log
    | .buf i => (s.bufs i).lock ≠ none
  mayPanic _ msg := msg = "bget: no buffers" ∨ msg = "too big a transaction" ∨
    own = false ∧ msg = "log_write outside of trans"
  wait_guar := by
    rintro p s w s' (_ | i) - ⟨hcache, hgroup⟩ - hwait hw
    · exact hgroup.wait hw hwait
    · exact hcache.wait i hw hwait

/-! ## What one process knows -/

/-- What a process knows about a buffer it holds. -/
structure Handle where
  /-- The block it asked for. -/
  block : ℕ
  /-- The buffer is valid. -/
  valid : Bool
  /-- The buffer is known to be written or logged. -/
  clean : Bool
  /-- The data are known to be on the disk. -/
  flushed : Bool

/-- The handle describes buffer `i`. -/
structure Handle.Describes (h : Handle) (dev : ℕ) (s : Store P) (i : BufId) : Prop where
  /-- The buffer caches the block. -/
  caches : (s.bufs i).caches dev h.block
  /-- The valid flag is known. -/
  valid : (s.bufs i).valid = h.valid
  /-- A clean handle has nothing left to write. -/
  clean : h.clean → s.ch.dirty i = false
  /-- A flushed handle agrees with the disk. -/
  flushed : h.flushed → s.disk h.block = (s.bufs i).data

/-- What a process knows about the `commit()` it runs. -/
structure CommitView where
  /-- The header block. -/
  start : ℕ
  /-- The transaction. -/
  lh : List ℕ
  /-- The number of blocks installed. -/
  installed : ℕ
  /-- Blocks already written. -/
  written : List ℕ

/-- The view describes the `commit()` of `p`; without a view `p` runs none. -/
def CommitView.Describes (p : P) (s : Store P) : Option CommitView → Prop
  | none => s.oh.committer ≠ some p
  | some v => s.oh.committer = some p ∧ s.log.start = v.start ∧ s.log.lh = v.lh ∧
      s.oh.installed = v.installed ∧ ∀ b ∈ v.written, b ∈ s.oh.written

/-- What process `p` knows: the buffers `H` it holds, a buffer `W` it refers to without
holding it, the `commit()` it runs and whether it is in an operation. -/
structure Knows (dev : ℕ) (p : P) (H : BufId → Option Handle) (W : Option (BufId × ℕ))
    (v : Option CommitView) (o : Bool) (s : Store P) : Prop where
  /-- The references of `p`. -/
  count : ∀ i, (s.ch.users i).count p =
    (if (H i).isSome then 1 else 0) + if W.map Prod.fst = some i then 1 else 0
  /-- The locks of `p`. -/
  lock : ∀ i, (s.bufs i).lock = some p ↔ (H i).isSome
  /-- The buffers that `p` holds. -/
  held : ∀ i h, H i = some h → h.Describes dev s i
  /-- The buffer that `p` refers to. -/
  ref : ∀ i b, W = some (i, b) → (s.bufs i).caches dev b
  /-- The operation of `p`. -/
  op : p ∈ s.oh.ops ↔ o = true
  /-- The `commit()` of `p`. -/
  view : CommitView.Describes p s v

section Stability

variable {dev : ℕ} {own : Bool} {p : P} {H : BufId → Option Handle} {W : Option (BufId × ℕ)}
  {v : Option CommitView} {o : Bool}

omit [DecidableEq P] in
/-- A buffer with a different device or block number caches something else. -/
theorem caches_congr {u u' : Buf P} {b : ℕ} (hdev : u'.dev = u.dev)
    (hblock : u'.blockno = u.blockno) (h : u.caches dev b) : u'.caches dev b := by
  rw [caches_iff] at h ⊢
  rwa [hdev, hblock]

/-- No other process can change what `p` knows. -/
theorem knows_stable : (storeContract P dev own).Stable p (Knows dev p H W v o) := by
  rintro s s' h ⟨q, w, hq, hinv, ⟨hcache, hgroup⟩, -⟩
  have hp : p ≠ q := hq.symm
  have hmem : ∀ i, 0 < (s.ch.users i).count p → p ∈ s.ch.users i := fun i hi =>
    List.count_pos_iff.mp hi
  refine ⟨?_, ?_, ?_, ?_, ?_, ?_⟩
  · intro i
    rw [hcache.count p hp]
    exact h.count i
  · intro i
    rw [hcache.lock p hp]
    exact h.lock i
  · intro i hd hi
    have hl : (s.bufs i).lock = some p := (h.lock i).mpr (by rw [hi]; rfl)
    have hdesc := h.held i hd hi
    obtain ⟨hvalid, hdata, hdirty, hdisk⟩ := hcache.held p hp i hl
    obtain ⟨hdev, hblock⟩ := hcache.block p hp i (hinv.cache.lock i p hl)
    refine ⟨caches_congr hdev hblock hdesc.caches, hvalid.trans hdesc.valid, ?_, ?_⟩
    · intro hc
      exact hdirty.trans (hdesc.clean hc)
    · intro hf
      rw [(caches_iff.mp hdesc.caches).2] at hdisk
      rw [hdisk, hdata]
      exact hdesc.flushed hf
  · intro i b hW
    have hpos : p ∈ s.ch.users i := by
      refine hmem i ?_
      rw [h.count i, hW]
      simp
    obtain ⟨hdev, hblock⟩ := hcache.block p hp i hpos
    exact caches_congr hdev hblock (h.ref i b hW)
  · rw [hgroup.ops p hp]
    exact h.op
  · have hview := h.view
    cases v with
    | none => exact fun hc => hview ((hgroup.committer p hp).mp hc)
    | some v =>
      obtain ⟨hc, hst, hlh, hinst, hwritten⟩ := hview
      obtain ⟨hst', hlh', hinst', hwritten'⟩ := hgroup.view p hp hc
      refine ⟨(hgroup.committer p hp).mpr hc, hst'.trans hst, hlh'.trans hlh,
        hinst'.trans hinst, ?_⟩
      rw [hwritten']
      exact hwritten

end Stability

end RiscvKernel
