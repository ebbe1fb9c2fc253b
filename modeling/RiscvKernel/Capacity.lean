import Mathlib.Algebra.Order.BigOperators.Group.List
import RiscvKernel.GroupCommit
import RiscvKernel.Lib.Seq

/-!
# The log and the cache at capacity

`begin_op` reserves `MAXOPBLOCKS` entries of the log for each operation, and `log_write`
panics when the log is full before it looks whether the block is listed already. The first
part follows the reservations through every interleaving of the operations.

The log has as many entries as the cache has buffers, and every listed block pins one. The
second part counts the buffers that are left for `commit()`.
-/

namespace RiscvKernel

open Threads Function

variable {P : Type} [DecidableEq P] {dev : ℕ} {p : P} {s s' : Store P}

/-- The calls of `StoreCall` in the process's own operations, with a limit on `log_write`:
`limit bs b` admits block `b` in an operation that has logged `bs`. -/
inductive OpCall (limit : List ℕ → ℕ → Prop) (dev : ℕ) (p : P) (s : Store P) :
    BioProg P Unit → Prop
  | beginOp : p ∉ s.oh.ops → OpCall limit dev p s beginOp
  | endOp : p ∈ s.oh.ops → OpCall limit dev p s endOp
  | bread {b : ℕ} : OpCall limit dev p s (bread dev b >>= fun _ => return ())
  | modify {i : BufId} (f : Block → Block) : (s.bufs i).lock = some p →
      OpCall limit dev p s (modify i f)
  | bwrite {i : BufId} : (s.bufs i).lock = some p → OpCall limit dev p s (bwrite i)
  | brelse {i : BufId} : (s.bufs i).lock = some p → s.ch.dirty i = false →
      OpCall limit dev p s (brelse i)
  | logWrite {i : BufId} : (s.bufs i).lock = some p → p ∈ s.oh.ops →
      limit (s.oh.opBlocks p) (s.bufs i).blockno → OpCall limit dev p s (logWrite i)

/-- Each operation logs at most `MAXOPBLOCKS` distinct blocks, each as often as it likes. -/
def DistinctLimit (bs : List ℕ) (b : ℕ) : Prop := (b :: bs).dedup.length ≤ maxopblocks

/-- In addition, an operation that has logged `MAXOPBLOCKS` distinct blocks logs no more. -/
def StrictLimit (bs : List ℕ) (_ : ℕ) : Prop := bs.dedup.length < maxopblocks

instance (bs : List ℕ) (b : ℕ) : Decidable (DistinctLimit bs b) :=
  inferInstanceAs (Decidable (_ ≤ _))

instance (bs : List ℕ) (b : ℕ) : Decidable (StrictLimit bs b) :=
  inferInstanceAs (Decidable (_ < _))

/-- The strict limit is a case of the limit on distinct blocks. -/
theorem StrictLimit.distinct {bs : List ℕ} {b : ℕ} (h : StrictLimit bs b) : DistinctLimit bs b := by
  unfold StrictLimit at h
  unfold DistinctLimit
  by_cases hb : b ∈ bs
  · rw [List.dedup_cons_of_mem hb]
    omega
  · rw [List.dedup_cons_of_notMem hb, List.length_cons]
    omega

/-- A limited call is a call. -/
theorem OpCall.storeCall {limit : List ℕ → ℕ → Prop} {m : BioProg P Unit}
    (h : OpCall limit dev p s m) : StoreCall true (· = dev) p s m := by
  cases h with
  | beginOp h => exact .beginOp h
  | endOp h => exact .endOp h
  | bread => exact .bread rfl
  | modify f h => exact .modify f h
  | bwrite h => exact .bwrite h
  | brelse h hd => exact .brelse h hd
  | logWrite h ho _ => exact .logWrite h fun _ => ho

/-- A stricter limit admits fewer calls. -/
theorem OpCall.mono {limit limit' : List ℕ → ℕ → Prop} (hlimit : ∀ bs b, limit bs b → limit' bs b)
    {m : BioProg P Unit} (h : OpCall limit dev p s m) : OpCall limit' dev p s m := by
  cases h with
  | beginOp h => exact .beginOp h
  | endOp h => exact .endOp h
  | bread => exact .bread
  | modify f h => exact .modify f h
  | bwrite h => exact .bwrite h
  | brelse h hd => exact .brelse h hd
  | logWrite h ho hl => exact .logWrite h ho (hlimit _ _ hl)

/-- A run of limited calls is a run of the cache and the log. -/
theorem reachable_of_limited {limit : List ℕ → ℕ → Prop} {c : Config P (Store P) Chan}
    (hc : Reachable (OpCall limit dev) (QuietStart dev) c) :
    Reachable (StoreCall true (· = dev)) (QuietStart dev) c :=
  hc.mono_calls fun _ _ _ => OpCall.storeCall

/-! ## Runs that fill the log -/

section Fill

variable (limit : List ℕ → ℕ → Prop)

/-- `p` reads block `b` into buffer `i`, logs it and releases the buffer. -/
def logBlock (p : P) (b : ℕ) (i : BufId) (s : Store P) : Store P :=
  after p (brelse i) (after p (logWrite i) (after p (bread rootdev b >>= fun _ => return ()) s))

/-- Each of the three calls of `logBlock` is open to `p` and returns. -/
def CanLog (p : P) (b : ℕ) (i : BufId) (s : Store P) : Prop :=
  let s1 := after p (bread rootdev b >>= fun _ => return ()) s
  let s2 := after p (logWrite i) s1
  ((bread rootdev b >>= fun _ => return () : BioProg P Unit).exec p s).value = some () ∧
    ((s1.bufs i).lock = some p ∧ p ∈ s1.oh.ops ∧ limit (s1.oh.opBlocks p) (s1.bufs i).blockno) ∧
    ((logWrite i).exec p s1).value = some () ∧
    ((s2.bufs i).lock = some p ∧ s2.ch.dirty i = false) ∧
    ((brelse i).exec p s2).value = some ()

instance [∀ bs b, Decidable (limit bs b)] (p : P) (b : ℕ) (i : BufId) (s : Store P) :
    Decidable (CanLog limit p b i s) :=
  inferInstanceAs (Decidable (_ ∧ _ ∧ _ ∧ _ ∧ _))

variable {limit}

/-- Logging one block is a run of the system. -/
theorem CanLog.reachable {b : ℕ} {i : BufId} (h : CanLog limit p b i s)
    (hs : Reachable (OpCall limit rootdev) (QuietStart rootdev) ⟨s, fun _ => ⟨.ret (), none⟩⟩) :
    Reachable (OpCall limit rootdev) (QuietStart rootdev)
      ⟨logBlock p b i s, fun _ => ⟨.ret (), none⟩⟩ := by
  obtain ⟨hread, ⟨hlock, hop, hlimit⟩, hlog, ⟨hlock', hclean⟩, hrel⟩ := h
  have hs := hs.call p .bread (Outcome.eq_ok hread)
  have hs := hs.call p (.logWrite hlock hop hlimit) (Outcome.eq_ok hlog)
  exact hs.call p (.brelse hlock' hclean) (Outcome.eq_ok hrel)

variable (limit) in
/-- Log a list of blocks, checking each call. -/
def logBlocks [∀ bs b, Decidable (limit bs b)] : List (P × ℕ × BufId) → Store P → Option (Store P)
  | [], s => some s
  | (p, b, i) :: rest, s =>
    if CanLog limit p b i s then logBlocks rest (logBlock p b i s) else none

/-- Logging a list of blocks is a run of the system. -/
theorem logBlocks_reachable [∀ bs b, Decidable (limit bs b)] {bs : List (P × ℕ × BufId)}
    (h : logBlocks limit bs s = some s')
    (hs : Reachable (OpCall limit rootdev) (QuietStart rootdev) ⟨s, fun _ => ⟨.ret (), none⟩⟩) :
    Reachable (OpCall limit rootdev) (QuietStart rootdev) ⟨s', fun _ => ⟨.ret (), none⟩⟩ := by
  induction bs generalizing s with
  | nil =>
    cases h
    exact hs
  | cons e bs ih =>
    rw [logBlocks] at h
    split at h
    · rename_i hcan
      exact ih h (hcan.reachable hs)
    · cases h

/-- Three operations have begun. -/
def threeOps : Store (Fin 3) :=
  after 2 beginOp (after 1 beginOp (after 0 beginOp (boot 2 rootdev fun _ => Block.zero)))

/-- Ten blocks for each of the three operations, from block 100 on. -/
def thirtyBlocks : List (Fin 3 × ℕ × BufId) :=
  (List.range 30).map fun k => (Fin.ofNat 3 (k / 10), 100 + k, Fin.ofNat nbuf k)

/-- The first `n` of the thirty blocks are logged. -/
def filled (n : ℕ) : Store (Fin 3) :=
  (logBlocks StrictLimit (thirtyBlocks.take n) threeOps).getD threeOps

theorem threeOps_reachable :
    Reachable (OpCall limit rootdev) (QuietStart rootdev)
      ⟨threeOps, fun _ => ⟨.ret (), none⟩⟩ := by
  have h : Reachable (OpCall limit rootdev) (QuietStart rootdev)
      (⟨boot 2 rootdev fun _ => Block.zero, fun _ => ⟨.ret (), none⟩⟩ : Config (Fin 3) _ Chan) :=
    ReachableWhile.start (boot_quietStart (by decide) 2 _)
  have h := h.call 0 (.beginOp (by decide)) rfl
  have h := h.call 1 (.beginOp (by decide)) rfl
  exact h.call 2 (.beginOp (by decide)) rfl

/-- Filling the log within the strict limit is a run. -/
theorem filled_reachable {n : ℕ}
    (h : (logBlocks StrictLimit (thirtyBlocks.take n) threeOps).isSome = true) :
    Reachable (OpCall StrictLimit rootdev) (QuietStart rootdev)
      ⟨filled n, fun _ => ⟨.ret (), none⟩⟩ := by
  obtain ⟨s, hs⟩ := Option.isSome_iff_exists.mp h
  rw [filled, hs]
  exact logBlocks_reachable hs threeOps_reachable

end Fill

/-! ## Reservations -/

/-- The entries of the log that the running operation of `p` may still fill. -/
def OpHistory.reserve (h : OpHistory P) (p : P) : ℕ := maxopblocks - (h.opBlocks p).dedup.length

/-- The invariant of the reservations: the listed blocks and what is still reserved fit. -/
structure ReserveInv (s : Store P) : Prop where
  /-- `outstanding` counts the running operations. -/
  outstanding : s.log.outstanding = s.oh.ops.length
  /-- A process runs at most one operation. -/
  nodup : s.oh.ops.Nodup
  /-- The blocks of a running operation are listed. -/
  running : ∀ p ∈ s.oh.ops, ∀ b ∈ s.oh.opBlocks p, b ∈ s.log.lh
  /-- The reservations fit the log. -/
  fits : s.log.lh.length + (s.oh.ops.map s.oh.reserve).sum ≤ logblocks

/-- The states that the contract of the cache and the log guarantees anyway. -/
def Listed (s : Store P) : Prop :=
  s.log.outstanding = s.oh.ops.length ∧ s.oh.ops.Nodup ∧
    ∀ p ∈ s.oh.ops, ∀ b ∈ s.oh.opBlocks p, b ∈ s.log.lh

/-- The contract of the reservations. It leaves the cache out, and takes from the contract of
the cache and the log that the blocks of a running operation stay listed. -/
def reserveContract (P : Type) [DecidableEq P] : Contract P (Store P) Chan where
  ok := Listed
  inv := ReserveInv
  guar q s _ s' := ∀ p, p ≠ q →
    (p ∈ s'.oh.ops ↔ p ∈ s.oh.ops) ∧ s'.oh.opBlocks p = s.oh.opBlocks p
  wait _ _ := True
  mayPanic _ msg := msg ≠ "too big a transaction"
  wait_guar := fun _ _ _ _ _ => trivial

/-- The reservations are left alone; the log may become shorter. -/
structure Settles (s s' : Store P) : Prop where
  /-- The same processes are in operations. -/
  ops : s'.oh.ops = s.oh.ops
  /-- The operations have logged the same blocks. -/
  opBlocks : s'.oh.opBlocks = s.oh.opBlocks
  /-- Nothing is added to the log. -/
  lh : s'.log.lh.length ≤ s.log.lh.length

instance : Std.Refl (Settles (P := P)) := ⟨fun _ => ⟨rfl, rfl, le_rfl⟩⟩

/-- A program that leaves the reservations alone. -/
abbrev LeavesReserve {α : Type} (m : BioProg P α) : Prop :=
  m.Within Settles (· ≠ "too big a transaction")

omit [DecidableEq P] in
/-- A section that leaves the log and its history alone. -/
theorem Settles.of_eq (hlog : s'.log = s.log) (hops : s'.oh.ops = s.oh.ops)
    (hblocks : s'.oh.opBlocks = s.oh.opBlocks) : Settles s s' :=
  ⟨hops, hblocks, by rw [hlog]⟩

section Leaves

omit [DecidableEq P] in
/-- `bread`. -/
theorem bread_leaves (d b : ℕ) : LeavesReserve (P := P) (bread d b) := by
  rw [bread_eq]
  refine .bind (.step fun p s => ?_) fun i => .bind (.step fun p s => ?_) fun _ =>
    .bind (.read _) fun v => ?_
  · unfold bgetSection
    split
    · exact .of_eq rfl rfl rfl
    · split
      · exact .of_eq rfl rfl rfl
      · exact (by decide : "bget: no buffers" ≠ "too big a transaction")
  · dsimp only
    split
    · exact .of_eq rfl rfl rfl
    · exact .of_eq rfl rfl rfl
  · dsimp only
    split
    · exact .bind (.update fun p s => .of_eq rfl rfl rfl) fun _ => .ret i
    · exact .ret i

omit [DecidableEq P] in
/-- Stores into a buffer. -/
theorem setData_leaves (i : BufId) (d : Store P → Block) :
    LeavesReserve (P := P) (Prog.update fun _ s => ((), s.setData i (d s))) :=
  .update fun _ _ => .of_eq rfl rfl rfl

/-- `bwrite`. -/
theorem bwrite_leaves (i : BufId) : LeavesReserve (P := P) (bwrite i) := by
  refine .step fun p s => ?_
  split
  · exact .of_eq rfl rfl rfl
  · exact (by decide : "bwrite" ≠ "too big a transaction")

/-- `brelse`. -/
theorem brelse_leaves (i : BufId) : LeavesReserve (P := P) (brelse i) := by
  refine .bind (.step fun p s => ?_) fun _ => .update fun p s => ?_
  · dsimp only
    split
    · exact .of_eq rfl rfl rfl
    · exact (by decide : "brelse" ≠ "too big a transaction")
  · dsimp only [Store.unref]
    split
    · exact .of_eq rfl rfl rfl
    · exact .of_eq rfl rfl rfl

/-- `write_head`. -/
theorem writeHead_leaves : LeavesReserve (P := P) writeHead :=
  .bind (.read _) fun _ => .bind (bread_leaves _ _) fun _ => .bind (setData_leaves _ _) fun _ =>
    .bind (bwrite_leaves _) fun _ => brelse_leaves _

/-- The loop of `write_log`. -/
theorem writeLogFrom_leaves (d start : ℕ) (bs : List ℕ) (tail : ℕ) :
    LeavesReserve (P := P) (writeLogFrom d start tail bs) := by
  induction bs generalizing tail with
  | nil => exact .ret ()
  | cons b bs ih =>
    exact .bind (bread_leaves _ _) fun _ => .bind (bread_leaves _ _) fun _ =>
      .bind (setData_leaves _ _) fun _ => .bind (bwrite_leaves _) fun _ =>
      .bind (brelse_leaves _) fun _ => .bind (brelse_leaves _) fun _ => ih (tail + 1)

/-- The loop of `install_trans`. -/
theorem installFrom_leaves (d start : ℕ) (bs : List ℕ) (tail : ℕ) :
    LeavesReserve (P := P) (installFrom false d start tail bs) := by
  induction bs generalizing tail with
  | nil => exact .ret ()
  | cons b bs ih =>
    exact .bind (bread_leaves _ _) fun _ => .bind (bread_leaves _ _) fun _ =>
      .bind (setData_leaves _ _) fun _ => .bind (bwrite_leaves _) fun _ =>
      .bind (.update fun _ _ => .of_eq rfl rfl rfl) fun _ =>
      .bind (brelse_leaves _) fun _ => .bind (brelse_leaves _) fun _ => ih (tail + 1)

/-- `commit()` only empties the log. -/
theorem commit_leaves : LeavesReserve (P := P) commit := by
  refine .bind (.read _) fun log => ?_
  split
  · refine .bind (.bind (.read _) fun _ => writeLogFrom_leaves _ _ _ _) fun _ =>
      .bind writeHead_leaves fun _ =>
      .bind (.bind (.read _) fun _ => installFrom_leaves _ _ _ _) fun _ =>
      .bind (.update fun p s => ?_) fun _ => writeHead_leaves
    exact ⟨rfl, rfl, Nat.zero_le _⟩
  · exact .ret ()

end Leaves

omit [DecidableEq P] in
/-- A section that leaves the reservations alone keeps the invariant. -/
theorem ReserveInv.settles (h : ReserveInv s) (hs : Settles s s') (hlisted : Listed s') :
    ReserveInv s' := by
  refine ⟨hlisted.1, hlisted.2.1, hlisted.2.2, ?_⟩
  have hreserve : s'.oh.reserve = s.oh.reserve := by
    funext q
    rw [OpHistory.reserve, OpHistory.reserve, hs.opBlocks]
  rw [hreserve, hs.ops]
  exact (Nat.add_le_add_right hs.lh _).trans h.fits

/-- A program that leaves the reservations alone keeps the contract and every assertion about
the operation of its process. -/
theorem LeavesReserve.safe {α : Type} {m : BioProg P α} (hm : LeavesReserve m)
    {A : Store P → Prop} (hstable : (reserveContract P).Stable p A)
    (hA : ∀ s s', Settles s s' → A s → A s') (hs : A s) :
    (reserveContract P).Safe p m (fun _ => A) s := by
  refine .of_within hstable hA (fun s s' hset hok hinv => hinv.settles hset hok)
    (fun s s' w hset q _ => ?_) (fun _ _ => trivial) (fun _ _ hmsg => hmsg) hm hs
  rw [hset.ops, hset.opBlocks]
  exact ⟨Iff.rfl, rfl⟩

/-- What a process knows about its own operation. -/
theorem ownOp_stable (A : Prop → List ℕ → Prop) :
    (reserveContract P).Stable p fun s => A (p ∈ s.oh.ops) (s.oh.opBlocks p) := by
  rintro s s' hA ⟨q, w, hq, -, hguar, -⟩
  obtain ⟨hops, hblocks⟩ := hguar p hq.symm
  rwa [hblocks, propext hops]

theorem true_stable : (reserveContract P).Stable p fun _ => True :=
  fun _ _ _ _ => trivial

/-- An operation that `begin_op` admits leaves room for its reservation. -/
theorem beginOp_reserves (hinv : ReserveInv s) (hop : p ∉ s.oh.ops)
    (hroom : (s.log.lh.length : ℤ) + (s.log.outstanding + 1) * maxopblocks ≤ logblocks)
    (hops : s'.oh.ops = p :: s.oh.ops)
    (hblocks : s'.oh.opBlocks = update s.oh.opBlocks p [])
    (hlh : s'.log.lh = s.log.lh) :
    s'.log.lh.length + (s'.oh.ops.map s'.oh.reserve).sum ≤ logblocks := by
  have hmap : s.oh.ops.map s'.oh.reserve = s.oh.ops.map s.oh.reserve := by
    refine List.map_congr_left fun q hq => ?_
    have hne : q ≠ p := fun hqp => hop (hqp ▸ hq)
    rw [OpHistory.reserve, OpHistory.reserve, hblocks, update_of_ne hne]
  have hself : s'.oh.reserve p = maxopblocks := by
    rw [OpHistory.reserve, hblocks, update_self]
    rfl
  have hsum : (s.oh.ops.map s.oh.reserve).sum ≤ s.oh.ops.length * maxopblocks := by
    have h := List.sum_le_card_nsmul (s.oh.ops.map s.oh.reserve) maxopblocks fun x hx => by
      obtain ⟨q, -, rfl⟩ := List.mem_map.mp hx
      exact Nat.sub_le _ _
    simpa using h
  rw [hops, List.map_cons, List.sum_cons, hself, hmap, hlh]
  rw [hinv.outstanding] at hroom
  simp only [maxopblocks] at hroom hsum ⊢
  omega

/-- `begin_op` keeps the reservations. -/
theorem safe_beginOp (hop : p ∉ s.oh.ops) :
    (reserveContract P).Safe p beginOp (fun _ _ => True) s := by
  refine .step (A := fun s => p ∉ s.oh.ops) hop
    (ownOp_stable fun o _ => ¬ o) fun s' hop' hinv => ?_
  split
  · exact fun _ => ⟨hinv, fun _ _ => ⟨Iff.rfl, rfl⟩, trivial, hop'⟩
  · split
    · exact fun _ => ⟨hinv, fun _ _ => ⟨Iff.rfl, rfl⟩, trivial, hop'⟩
    · rename_i hroom
      intro hok
      refine ⟨⟨hok.1, hok.2.1, hok.2.2, ?_⟩, fun q hq => ⟨?_, ?_⟩, trivial⟩
      · exact beginOp_reserves hinv hop' (by omega) rfl rfl rfl
      · simp [hq]
      · exact update_of_ne hq _ _

/-- An operation that ends gives back its reservation. -/
theorem endOp_reserves (hinv : ReserveInv s) (hop : p ∈ s.oh.ops)
    (hops : s'.oh.ops = s.oh.ops.erase p) (hblocks : s'.oh.opBlocks = s.oh.opBlocks)
    (hlh : s'.log.lh = s.log.lh) :
    s'.log.lh.length + (s'.oh.ops.map s'.oh.reserve).sum ≤ logblocks := by
  have hreserve : s'.oh.reserve = s.oh.reserve := by
    funext q
    rw [OpHistory.reserve, OpHistory.reserve, hblocks]
  have hsum := List.sum_map_erase s.oh.reserve hop
  have hfits := hinv.fits
  rw [hops, hreserve, hlh]
  omega

/-- `end_op` keeps the reservations. -/
theorem safe_endOp_reserve (hop : p ∈ s.oh.ops) :
    (reserveContract P).Safe p endOp (fun _ _ => True) s := by
  refine .bind (Q := fun _ _ => True) ?_ fun doCommit s1 _ => ?_
  · refine .step (A := fun s => p ∈ s.oh.ops) hop
      (ownOp_stable fun o _ => o) fun s' hop' hinv => ?_
    have hguar : ∀ q, q ≠ p → (q ∈ s'.oh.ops.erase p ↔ q ∈ s'.oh.ops) := fun q hq =>
      List.mem_erase_of_ne hq
    unfold endOpSection
    dsimp only
    split
    · exact (by decide : "log.committing" ≠ "too big a transaction")
    · split
      all_goals
        intro hok
        refine ⟨⟨hok.1, hok.2.1, hok.2.2, ?_⟩, fun q hq => ⟨hguar q hq, rfl⟩, trivial⟩
        exact endOp_reserves hinv hop' rfl rfl rfl
  · have hrest : LeavesReserve (P := P) (if doCommit then do
          commit
          Prog.step fun _ s => .done () s.finishCommit [.log]
        else pure ()) := by
      split
      · exact .bind commit_leaves fun _ => .step fun _ _ => ⟨rfl, rfl, le_rfl⟩
      · exact .ret ()
    exact hrest.safe true_stable (fun _ _ _ _ => trivial) trivial

/-- While a running operation has something reserved, the log is not full. -/
theorem ReserveInv.not_full (h : ReserveInv s) (hop : p ∈ s.oh.ops)
    (hlimit : (s.oh.opBlocks p).dedup.length < maxopblocks) : s.log.lh.length < logblocks := by
  have hsum := List.sum_map_erase s.oh.reserve hop
  have hfits := h.fits
  have hpos : 0 < s.oh.reserve p := Nat.sub_pos_of_lt hlimit
  omega

/-- A `log_write` that adds an entry uses up one that was reserved. -/
theorem logWrite_reserves (hinv : ReserveInv s) {b : ℕ} (hop : p ∈ s.oh.ops)
    (hlimit : (s.oh.opBlocks p).dedup.length < maxopblocks)
    (hops : s'.oh.ops = s.oh.ops)
    (hblocks : s'.oh.opBlocks = update s.oh.opBlocks p (b :: s.oh.opBlocks p))
    (hlh : s'.log.lh = if b ∈ s.log.lh then s.log.lh else s.log.lh ++ [b]) :
    s'.log.lh.length + (s'.oh.ops.map s'.oh.reserve).sum ≤ logblocks := by
  have hmap : (s.oh.ops.erase p).map s'.oh.reserve = (s.oh.ops.erase p).map s.oh.reserve := by
    refine List.map_congr_left fun q hq => ?_
    have hne : q ≠ p := fun hqp => hinv.nodup.not_mem_erase (hqp ▸ hq)
    rw [OpHistory.reserve, OpHistory.reserve, hblocks, update_of_ne hne]
  have hself : s'.oh.reserve p = maxopblocks - (b :: s.oh.opBlocks p).dedup.length := by
    rw [OpHistory.reserve, hblocks, update_self]
  have hold : s.oh.reserve p = maxopblocks - (s.oh.opBlocks p).dedup.length := rfl
  have hsum := List.sum_map_erase s.oh.reserve hop
  have hsum' := List.sum_map_erase s'.oh.reserve hop
  have hfits := hinv.fits
  rw [hmap] at hsum'
  rw [hlh, hops]
  by_cases hb : b ∈ s.log.lh
  · -- An absorbed block takes no entry; the reservation can only shrink.
    have hle : s'.oh.reserve p ≤ s.oh.reserve p := by
      rw [hself, hold]
      refine Nat.sub_le_sub_left ?_ _
      by_cases hmem : b ∈ s.oh.opBlocks p
      · rw [List.dedup_cons_of_mem hmem]
      · rw [List.dedup_cons_of_notMem hmem]
        exact Nat.le_succ _
    rw [if_pos hb]
    omega
  · have hnew : b ∉ s.oh.opBlocks p := fun hmem => hb (hinv.running p hop b hmem)
    rw [List.dedup_cons_of_notMem hnew, List.length_cons] at hself
    rw [if_neg hb, List.length_append, List.length_singleton]
    omega

/-- `log_write` within the strict limit keeps the reservations and does not find the log full. -/
theorem safe_logWrite {i : BufId} (hop : p ∈ s.oh.ops)
    (hlimit : (s.oh.opBlocks p).dedup.length < maxopblocks) :
    (reserveContract P).Safe p (logWrite i) (fun _ _ => True) s := by
  refine .step
    (A := fun s => p ∈ s.oh.ops ∧ (s.oh.opBlocks p).dedup.length < maxopblocks) ⟨hop, hlimit⟩
    (ownOp_stable fun o bs => o ∧ bs.dedup.length < maxopblocks) fun s' hA hinv => ?_
  obtain ⟨hop', hlimit'⟩ := hA
  have hroom := hinv.not_full hop' hlimit'
  rw [if_neg (by omega)]
  split
  · exact (by decide : "log_write outside of trans" ≠ "too big a transaction")
  · split
    all_goals
      rename_i hb
      intro hok
      refine ⟨⟨hok.1, hok.2.1, hok.2.2, ?_⟩, fun q hq => ⟨Iff.rfl, ?_⟩, trivial⟩
      · refine logWrite_reserves hinv hop' hlimit' rfl rfl ?_
        simp only [hb, if_true, if_false]
        rfl
      · exact update_of_ne hq _ _

/-- Every call within the strict limit keeps the contract of the reservations. -/
theorem safe_opCall {m : BioProg P Unit} (hcall : OpCall StrictLimit dev p s m) :
    (reserveContract P).Safe p m (fun _ _ => True) s := by
  have hleaves : LeavesReserve m → (reserveContract P).Safe p m (fun _ _ => True) s :=
    fun hm => hm.safe true_stable (fun _ _ _ _ => trivial) trivial
  cases hcall with
  | beginOp h => exact safe_beginOp h
  | endOp h => exact safe_endOp_reserve h
  | bread => exact hleaves (.bind (bread_leaves _ _) fun _ => .ret ())
  | modify f h => exact hleaves (setData_leaves _ _)
  | bwrite h => exact hleaves (bwrite_leaves _)
  | brelse h hd => exact hleaves (brelse_leaves _)
  | logWrite h ho hlimit => exact safe_logWrite ho hlimit

omit [DecidableEq P] in
/-- Nothing is reserved at a quiet start. -/
theorem QuietStart.reserveInv (h : QuietStart dev s) : ReserveInv s := by
  have hgroup := h.inv.group
  refine ⟨hgroup.outstanding, hgroup.ops_nodup, hgroup.running, ?_⟩
  rw [h.log_eq.2.2, h.oh_eq]
  exact Nat.zero_le _

/-- **The reservation protects `log_write`.** If no operation calls `log_write` once it has
logged `MAXOPBLOCKS` distinct blocks, the log never overflows and `log_write` never finds it
full, however the operations overlap. -/
theorem log_reservation {c : Config P (Store P) Chan}
    (hc : Reachable (OpCall StrictLimit dev) (QuietStart dev) c) :
    c.st.log.lh.length ≤ logblocks ∧ ∀ p, ¬ Panics c p "too big a transaction" := by
  have hlisted : ∀ c : Config P (Store P) Chan,
      Reachable (OpCall StrictLimit dev) (QuietStart dev) c → Listed c.st := by
    intro c hc
    have hgroup := (store_holds (reachable_of_limited hc)).inv.group
    exact ⟨hgroup.outstanding, hgroup.ops_nodup, hgroup.running⟩
  have hholds : (reserveContract P).Holds (fun _ _ => True) c :=
    Contract.holds_of_reachable (fun _ => true_stable)
      (fun _ _ _ _ _ hcall => safe_opCall hcall) (fun _ hs => ⟨hs.reserveInv, fun _ => trivial⟩)
      (hc.whileOk hlisted)
  refine ⟨(Nat.le_add_right _ _).trans hholds.inv.fits, fun p hpanic => ?_⟩
  exact hholds.mayPanic hpanic rfl

/-- Three operations that log ten blocks each fill the log, and no more. -/
theorem filled_reservation :
    (filled 30).log.lh.length = logblocks ∧
      ∀ p, ¬ Panics (⟨filled 30, fun _ => ⟨.ret (), none⟩⟩ : Config (Fin 3) _ Chan) p
        "too big a transaction" := by
  have hfacts : (logBlocks StrictLimit (thirtyBlocks.take 30) threeOps).isSome = true ∧
      (filled 30).log.lh.length = logblocks := by
    decide +kernel
  exact ⟨hfacts.2, (log_reservation (filled_reachable hfacts.1)).2⟩

/-- An operation within the limit on distinct blocks finds the log full when it logs one of its
own blocks again: three operations have filled the log, and the last one logs its last block
for the second time. -/
theorem full_log_panics :
    ∃ c : Config (Fin 3) (Store (Fin 3)) Chan,
      Reachable (OpCall DistinctLimit rootdev) (QuietStart rootdev) c ∧
      Panics c 2 "too big a transaction" := by
  let s1 := after 2 (bread rootdev 129 >>= fun _ => return ()) (filled 30)
  have hfacts : (logBlocks StrictLimit (thirtyBlocks.take 30) threeOps).isSome = true ∧
      ((bread rootdev 129 >>= fun _ => return () : BioProg (Fin 3) Unit).exec 2
        (filled 30)).value = some () ∧
      (s1.bufs 29).lock = some 2 ∧ 2 ∈ s1.oh.ops ∧
      DistinctLimit (s1.oh.opBlocks 2) (s1.bufs 29).blockno ∧ logblocks ≤ s1.log.lh.length := by
    decide +kernel
  obtain ⟨hfill, hread, hlock, hop, hlimit, hfull⟩ := hfacts
  have h : Reachable (OpCall DistinctLimit rootdev) (QuietStart rootdev)
      ⟨filled 30, fun _ => ⟨.ret (), none⟩⟩ :=
    (filled_reachable hfill).mono_calls fun _ _ _ hcall => hcall.mono fun _ _ =>
      StrictLimit.distinct
  have h := h.call 2 (.bread (b := 129)) (Outcome.eq_ok hread)
  have h := h.step (Step.call (p := 2) rfl (.logWrite (i := 29) hlock hop hlimit)) trivial
  exact ⟨_, h, panics_step (if_pos hfull)⟩

/-! ## Buffers for the commit -/

/-- The blocks that the log pins and those that process `p` holds. -/
def pinnedOrHeld (p : P) (s : Store P) : Set ℕ :=
  {b | b ∈ s.log.lh ∨ ∃ i, (s.bufs i).lock = some p ∧ (s.bufs i).caches s.log.dev b}

/-- `commit()` can get the buffers it needs: one is neither pinned nor held, and `p` holds none
of the blocks to be locked. -/
def CanCommit (p : P) (s : Store P) : Prop :=
  s.log.lh = [] ∨ (∃ i, (s.bufs i).refcnt = 0) ∧
    ∀ i, (s.bufs i).lock = some p → (s.bufs i).blockno ∉ commitBlocks s.log.start s.log.lh

/-- The state in which the last `end_op` calls `commit()`. -/
def Store.startCommit (s : Store P) (p : P) : Store P :=
  { s with
    log := { s.log with outstanding := 0, committing := true }
    oh := { s.oh.endOp p with committer := some p, written := [] } }

omit [DecidableEq P] in
/-- A buffer without references leaves room: fewer blocks than buffers are kept. -/
theorem Alone.room {lg : Log} {V : ℕ → Block} {D : Set ℕ} (h : Alone False p lg [] V D s)
    {i : BufId} (hi : (s.bufs i).refcnt = 0) : Room [] D := by
  refine ⟨(((List.finRange nbuf).erase i).map fun j => (s.bufs j).blockno), fun b hb => ?_, ?_⟩
  · obtain ⟨j, hc, -⟩ := h.pinned b hb
    obtain ⟨n, hn, -, hpin, -⟩ := h.refs j
    have hji : j ≠ i := by
      rintro rfl
      have := hpin b hb hc
      simp only [List.not_mem_nil, if_false] at hn
      omega
    refine List.mem_map.mpr ⟨j, ?_, (caches_iff.mp hc).2⟩
    exact (List.mem_erase_of_ne hji).mpr (List.mem_finRange j)
  · have hlen := List.length_erase_of_mem (List.mem_finRange i)
    rw [List.length_finRange] at hlen
    simp only [List.length_map, hlen, List.length_nil]
    decide

/-- Process `p`, which holds the buffers `H`, runs the only operation, and no other process uses
a buffer. The listed blocks lie outside the log. -/
structure LastOp (dev : ℕ) (p : P) (H : BufId → Option Handle) (s : Store P) : Prop where
  /-- The state is one of a run. -/
  inv : StoreInv dev s
  /-- What `p` knows. -/
  knows : Knows dev p H none none true s
  /-- Its buffers have been read. -/
  valid : ∀ i x, H i = some x → x.valid = true
  /-- There is no other operation. -/
  ops : s.oh.ops = [p]
  /-- No other process uses a buffer. -/
  users : ∀ i, ∀ q ∈ s.ch.users i, q = p
  /-- The log does not list its own blocks. -/
  outside : ∀ b ∈ s.log.lh, ¬ InLog s.log.start b

namespace LastOp

variable {H : BufId → Option Handle}

/-- Nobody is committing yet. -/
theorem committer (h : LastOp dev p H s) : s.oh.committer = none :=
  h.inv.group.committer_none (by rw [h.ops]; exact List.cons_ne_nil _ _)

/-- The only operation, when it ends, starts `commit()`. -/
theorem endOpSection_eq (h : LastOp dev p H s) :
    endOpSection p s = .done true (s.startCommit p) [] := by
  have hcommitting : s.log.committing = false := by
    rw [h.inv.group.committing, h.committer]
    rfl
  have hout : s.log.outstanding - 1 = 0 := by
    rw [h.inv.group.outstanding, h.ops]
    rfl
  simp only [endOpSection, hcommitting, hout, Store.startCommit]
  rfl

/-- A buffer is referenced by the process that holds it and by the log. -/
theorem refcnt_eq (h : LastOp dev p H s) (i : BufId) :
    (s.bufs i).refcnt = (if (s.bufs i).lock = some p then 1 else 0) +
      if (s.bufs i).dev = dev ∧ (s.bufs i).blockno ∈ s.log.lh then 1 else 0 := by
  have hlen : (s.ch.users i).length = if (s.bufs i).lock = some p then 1 else 0 := by
    rw [← List.count_eq_length.mpr fun q hq => (h.users i q hq).symm, h.knows.count i]
    simp [h.knows.lock i]
  rw [h.inv.cache.ref i, refsOf, h.inv.group.installed h.committer, List.drop_zero, hlen]
  split <;> rfl

/-- While the buffers held are not for listed blocks, the cache and the disk represent the data
most recently stored. -/
theorem alone (h : LastOp dev p H s)
    (hheld : ∀ i, (s.bufs i).lock = some p → (s.bufs i).blockno ∉ s.log.lh) :
    Alone False p s.log [] s.ch.latest (pinnedOrHeld p s) s := by
  have hcache := h.inv.cache
  have hrefs := h.refcnt_eq
  rw [h.inv.group.installed h.committer, List.drop_zero] at hcache
  have hdev := h.inv.dev_eq
  subst hdev
  have hcaches : ∀ i, (s.bufs i).lock = some p →
      (s.bufs i).caches s.log.dev (s.bufs i).blockno := fun i hl =>
    caches_iff.mpr ⟨hcache.dev_eq_of_lock hl, rfl⟩
  have hlocked : ∀ i, (s.bufs i).lock = none ∨ (s.bufs i).lock = some p := by
    intro i
    cases hl : (s.bufs i).lock with
    | none => exact .inl rfl
    | some q =>
      rw [h.users i q (hcache.lock i q hl)]
      exact .inr rfl
  refine ⟨rfl, hcache.mem_lru, hcache.uniq, fun i hi => absurd hi List.not_mem_nil, ?_, ?_, ?_, ?_,
    ?_⟩
  · exact fun i _ => (hlocked i).imp_right fun hl =>
      ⟨_, .inr ⟨i, hl, hcaches i hl⟩, hheld i hl, hcaches i hl⟩
  · intro i
    refine ⟨(s.bufs i).refcnt, by simp, ?_, ?_, .inr ?_⟩
    · rw [hrefs i]
      split <;> split <;> decide
    · rintro b (hb | ⟨j, hl, hcj⟩) hc
      · obtain ⟨hd, hblock⟩ := caches_iff.mp hc
        have hpin : (s.bufs i).dev = s.log.dev ∧ (s.bufs i).blockno ∈ s.log.lh := ⟨hd, hblock ▸ hb⟩
        rw [hrefs i, if_pos hpin]
        split <;> decide
      · rw [hcache.uniq j i b hcj hc] at hl
        rw [hrefs i, if_pos hl]
        split <;> decide
    · rcases hlocked i with hl | hl
      · by_cases hpin : (s.bufs i).dev = s.log.dev ∧ (s.bufs i).blockno ∈ s.log.lh
        · refine .inr ⟨by simp [hrefs i, hl, hpin], _, .inl hpin.2, ?_⟩
          exact caches_iff.mpr ⟨hpin.1, rfl⟩
        · exact .inl (by simp [hrefs i, hl, hpin])
      · refine .inr ⟨?_, _, .inr ⟨i, hl, hcaches i hl⟩, hcaches i hl⟩
        simp [hrefs i, hl, hheld i hl]
  · intro i b hc hv
    rw [hcache.data i hv, (caches_iff.mp hc).2]
  · intro b hb
    rcases hcache.disk b with hd | hmem | ⟨i, hc, -, hdirty⟩
    · exact hd
    · exact absurd (.inl hmem) hb
    · exact absurd (.inr ⟨i, (hlocked i).resolve_left (hcache.dirty i hdirty), hc⟩) hb
  · rintro b (hb | ⟨i, hl, hc⟩)
    · exact hcache.pinned b hb
    · obtain ⟨x, hx⟩ := Option.isSome_iff_exists.mp ((h.knows.lock i).mp hl)
      exact ⟨i, hc, (h.knows.held i x hx).valid.trans (h.valid i x hx)⟩

/-- A first `bread` that returns has found a buffer without references. -/
theorem bread_ends (h : LastOp dev p H s) {b : ℕ} (hb : b ∉ s.log.lh) {s1 : Store P}
    (hlru : s1.lru = s.lru) (hbufs : s1.bufs = s.bufs) :
    Ends p (bread dev b) s1 fun _ _ => ∃ i, (s.bufs i).refcnt = 0 := by
  rw [bread_eq]
  refine Ends.bind (Q := fun i s' => (∃ i, (s.bufs i).refcnt = 0) ∨ (s'.bufs i).lock ≠ none)
    (Ends.step fun i s' w hsec => ?_) fun i s' h' => ?_
  · unfold bgetSection at hsec
    rw [hlru, hbufs] at hsec
    split at hsec
    · rename_i j hfind
      have hc : (s.bufs j).caches dev b :=
        List.find?_some (p := fun i => (s.bufs i).caches dev b) hfind
      cases hsec
      by_cases hl : (s.bufs i).lock = some p
      · exact .inr (by simp [Store.claim, Store.setBuf, Store.setUsers, hl])
      · refine .inl ⟨i, ?_⟩
        rw [h.refcnt_eq i, if_neg hl, if_neg fun hpin => hb ((caches_iff.mp hc).2 ▸ hpin.2)]
        rfl
    · split at hsec
      · rename_i j hfind
        exact .inl ⟨j, by simpa using List.find?_some (p := fun i => (s.bufs i).refcnt == 0) hfind⟩
      · cases hsec
  · refine Ends.bind (Q := fun _ _ => ∃ i, (s.bufs i).refcnt = 0) (Ends.step fun _ _ w hsec => ?_)
      fun _ _ hfree _ _ _ => hfree
    refine h'.resolve_right fun hl => ?_
    split at hsec
    · cases hsec
    · exact hl ‹_›

/-- A `commit()` that returns had the buffers it needs. -/
theorem canCommit (h : LastOp dev p H s) {s' : Store P}
    (hexec : (commit : BioProg P Unit).exec p (s.startCommit p) = .ok () s') : CanCommit p s := by
  have hgood : (storeContract P dev true).Good p s _ _ _ := endOpSection_good h.inv h.knows
  rw [h.endOpSection_eq] at hgood
  obtain ⟨hinv, -, hknows⟩ := hgood trivial
  by_cases hnil : s.log.lh = []
  · exact .inl hnil
  refine .inr ⟨?_, fun i hl hmem => ?_⟩
  · have hb : s.log.start + 0 + 1 ∉ s.log.lh := fun hb =>
      h.outside _ hb ⟨by omega, by simp only [logblocks, maxopblocks]; omega⟩
    obtain ⟨b, bs, hcons⟩ := List.exists_cons_of_ne_nil hnil
    have hends : Ends p commit (s.startCommit p) fun _ _ => ∃ i, (s.bufs i).refcnt = 0 := by
      refine Ends.bind (Ends.read (Q := fun lg s' => lg = (s.startCommit p).log ∧
        s' = s.startCommit p) ⟨rfl, rfl⟩) ?_
      rintro _ _ ⟨rfl, rfl⟩
      have hlen : (s.startCommit p).log.lh.length > 0 := List.length_pos_iff.mpr hnil
      rw [if_pos hlen]
      refine Ends.bind (m := writeLog) (Ends.bind (Ends.read (Q := fun lg s' =>
        lg = (s.startCommit p).log ∧ s' = s.startCommit p) ⟨rfl, rfl⟩) ?_)
        fun _ _ hfree _ _ _ => hfree
      rintro _ _ ⟨rfl, rfl⟩
      simp only [Store.startCommit, hcons, h.inv.dev_eq]
      exact Ends.bind (h.bread_ends hb rfl rfl) fun _ _ hfree _ _ _ => hfree
    exact hends _ _ hexec
  · obtain ⟨x, hx⟩ := Option.isSome_iff_exists.mp ((h.knows.lock i).mp hl)
    have hpost := (safe_commit hknows).exec_ok hinv (fun _ => trivial) hexec
    exact hpost.1 hnil _ hmem i x hx (caches_iff.mp (h.knows.held i x hx).caches).2.symm

/-- `commit()` returns if it can get the buffers it needs. -/
theorem commits (h : LastOp dev p H s) (hcan : CanCommit p s) :
    ∃ s', (commit : BioProg P Unit).exec p (s.startCommit p) = .ok () s' ∧
      s'.writes = s.writes ++ (if s.log.lh = [] then [] else commitWrites s.log s.ch.latest) ∧
      s'.log = ⟨s.log.start, s.log.dev, 0, true, []⟩ ∧
      ∀ i, (s'.bufs i).refcnt ≠ 0 → ∃ j, (s.bufs j).lock = some p ∧
        (s'.bufs i).caches dev (s.bufs j).blockno := by
  have hheld : ∀ i, (s.bufs i).lock = some p → (s.bufs i).blockno ∉ s.log.lh := by
    intro i hl hmem
    rcases hcan with hnil | ⟨-, hfree⟩
    · rw [hnil] at hmem
      cases hmem
    · exact hfree i hl (List.mem_cons_of_mem _ (List.mem_append_right _ hmem))
  have halone := h.alone hheld
  have hroom : s.log.lh ≠ [] → s.log.lh.length ≤ logblocks ∧
      (False ∨ Room [] (pinnedOrHeld p s)) ∧
      ∀ k ≤ s.log.lh.length, s.log.start + k ∉ pinnedOrHeld p s := by
    intro hne
    obtain ⟨⟨i, hi⟩, hfree⟩ := hcan.resolve_left hne
    obtain ⟨l, hl, hlt⟩ := halone.room hi
    rw [List.length_nil, Nat.zero_add] at hlt
    have hsub : s.log.lh ⊆ l := fun b hb => hl b (.inl hb)
    have hlen : s.log.lh.length ≤ logblocks :=
      (h.inv.group.lh_nodup.subperm hsub).length_le.trans hlt.le
    refine ⟨hlen, .inr (halone.room hi), fun k hk hmem => ?_⟩
    rcases hmem with hb | ⟨j, hl, hc⟩
    · exact h.outside _ hb ⟨by omega, by omega⟩
    · refine hfree j hl ?_
      rw [(caches_iff.mp hc).2, commitBlocks, List.mem_cons, List.mem_append, List.mem_range'_1]
      omega
  obtain ⟨_, s', hexec, hwrites, V', h'⟩ := (commit_issues (halone.withLog
    (g := (s.startCommit p).log) (t := s.startCommit p) rfl (fun _ _ hb => hb) rfl rfl rfl rfl)
    (fun b hb => .inl hb) h.outside h.inv.group.lh_nodup hroom).exists_ok
  refine ⟨s', hexec, hwrites, h'.log_eq, fun i hi => ?_⟩
  obtain ⟨n, hn, -, -, hcount⟩ := h'.refs i
  rcases hcount.resolve_left id with hzero | ⟨-, b, hb, hcb⟩
  · exact absurd (by simp [hn, hzero]) hi
  · obtain ⟨j, hl, hc⟩ := hb.1.resolve_left hb.2
    refine ⟨j, hl, ?_⟩
    rw [(caches_iff.mp hc).2, ← h.inv.dev_eq]
    exact hcb

end LastOp

/-- **The last operation can be committed exactly when a buffer is free.** In any reachable
state let `p`, the only process that uses buffers, end the last operation; the listed blocks
are home blocks outside the log. Then `end_op` returns if and only if nothing is listed, or some
buffer is neither pinned nor held and `p` holds none of the blocks that `commit()` locks. When
it returns it has written the log, the header, the home blocks and the cleared header, and only
buffers for the blocks that `p` holds are still referenced. -/
theorem last_end_op_commits {c : Config P (Store P) Chan}
    (hc : Reachable (StoreCall true (· = dev)) (QuietStart dev) c)
    (hret : (c.thread p).prog = .ret ()) (hops : c.st.oh.ops = [p])
    (husers : ∀ i, ∀ q ∈ c.st.ch.users i, q = p)
    (hlog : ∀ b ∈ c.st.log.lh, ¬ InLog c.st.log.start b) :
    ((∃ s', (endOp : BioProg P Unit).exec p c.st = .ok () s') ↔ CanCommit p c.st) ∧
    ∀ s', (endOp : BioProg P Unit).exec p c.st = .ok () s' →
      s'.writes = c.st.writes ++
        (if c.st.log.lh = [] then [] else commitWrites c.st.log c.st.ch.latest) ∧
      s'.log = ⟨c.st.log.start, c.st.log.dev, 0, false, []⟩ ∧
      ∀ i, (s'.bufs i).refcnt ≠ 0 → ∃ j, (c.st.bufs j).lock = some p ∧
        (s'.bufs i).caches dev (c.st.bufs j).blockno := by
  have hidle := (store_holds hc).safe p
  rw [hret] at hidle
  obtain ⟨H, o, hvalid, hknows⟩ : Idle dev p c.st := hidle
  obtain rfl : o = true := hknows.op.mp (by rw [hops]; exact List.mem_singleton_self p)
  have h : LastOp dev p H c.st := ⟨(store_holds hc).inv, hknows, hvalid, hops, husers, hlog⟩
  have hendOp : (endOp : BioProg P Unit).exec p c.st =
      (commit.exec p (c.st.startCommit p)).bind fun _ s2 => .ok () s2.finishCommit := by
    unfold endOp
    rw [exec_bind, exec_step, h.endOpSection_eq]
    simp only [Outcome.bind_ok, if_true, exec_bind, exec_step]
  have hcan : ∀ s', (endOp : BioProg P Unit).exec p c.st = .ok () s' → CanCommit p c.st := by
    intro s' hexec
    rw [hendOp] at hexec
    cases hcommit : (commit : BioProg P Unit).exec p (c.st.startCommit p) with
    | ok a s2 => exact h.canCommit hcommit
    | panic msg s2 => rw [hcommit] at hexec; cases hexec
    | stuck s2 => rw [hcommit] at hexec; cases hexec
  refine ⟨⟨fun ⟨s', hexec⟩ => hcan s' hexec, fun hcan => ?_⟩, fun s' hexec => ?_⟩
  · obtain ⟨s2, hcommit, -⟩ := h.commits hcan
    exact ⟨s2.finishCommit, by rw [hendOp, hcommit, Outcome.bind_ok]⟩
  · obtain ⟨s2, hcommit, hwrites, hlog2, hrefs⟩ := h.commits (hcan s' hexec)
    rw [hendOp, hcommit, Outcome.bind_ok] at hexec
    cases hexec
    exact ⟨hwrites, by simp only [Store.finishCommit, hlog2], hrefs⟩

/-- The first two of the three operations have ended; the last one is about to. -/
def lastOp (n : ℕ) : Store (Fin 3) := after 1 endOp (after 0 endOp (filled n))

/-- The run up to `lastOp` consists of calls that return, and leaves one operation, `n` listed
blocks outside the log and no buffer in use. -/
def LastOpReady (n : ℕ) : Prop :=
  (logBlocks StrictLimit (thirtyBlocks.take n) threeOps).isSome = true ∧
    (0 ∈ (filled n).oh.ops ∧ (endOp.exec 0 (filled n)).value = some ()) ∧
    (1 ∈ (after 0 endOp (filled n)).oh.ops ∧
      (endOp.exec 1 (after 0 endOp (filled n))).value = some ()) ∧
    (lastOp n).oh.ops = [2] ∧ (∀ i, (lastOp n).ch.users i = []) ∧ (lastOp n).log.lh.length = n ∧
    (lastOp n).log.start = 2 ∧ ∀ b ∈ (lastOp n).log.lh, 100 ≤ b

instance (n : ℕ) : Decidable (LastOpReady n) :=
  inferInstanceAs (Decidable (_ ∧ _ ∧ _ ∧ _ ∧ _ ∧ _ ∧ _ ∧ _))

/-- Ending two of the three operations is a run. -/
theorem LastOpReady.reachable {n : ℕ} (h : LastOpReady n) :
    Reachable (OpCall StrictLimit rootdev) (QuietStart rootdev)
      ⟨lastOp n, fun _ => ⟨.ret (), none⟩⟩ := by
  obtain ⟨hfill, h0, h1, -⟩ := h
  have hs := (filled_reachable hfill).call 0 (.endOp h0.1) (Outcome.eq_ok h0.2)
  exact hs.call 1 (.endOp h1.1) (Outcome.eq_ok h1.2)

/-- Blocks from 100 on lie outside the log. -/
theorem outside_of_le {s : Store (Fin 3)} (hstart : s.log.start = 2)
    (hblocks : ∀ b ∈ s.log.lh, 100 ≤ b) : ∀ b ∈ s.log.lh, ¬ InLog s.log.start b := by
  intro b hb hin
  have hle := hin.2
  have hge := hblocks b hb
  simp only [hstart, logblocks, maxopblocks] at hle
  omega

/-- The last operation has 28 blocks listed and holds a buffer for block 200. -/
def lastOpHolding : Store (Fin 3) :=
  after 2 (bread rootdev 200 >>= fun _ => return ()) (lastOp 28)

/-- That transaction is committed, with a single buffer to spare. -/
theorem lastOp_commits :
    lastOpHolding.log.lh.length = 28 ∧ (∃ i, (lastOpHolding.bufs i).lock = some 2) ∧
      ∃ s', endOp.exec 2 lastOpHolding = .ok () s' := by
  have hfacts : LastOpReady 28 ∧
      ((bread rootdev 200 >>= fun _ => return () : BioProg (Fin 3) Unit).exec 2
        (lastOp 28)).value = some () ∧
      lastOpHolding.oh.ops = [2] ∧ (∀ i, ∀ q ∈ lastOpHolding.ch.users i, q = 2) ∧
      lastOpHolding.log.start = 2 ∧ (∀ b ∈ lastOpHolding.log.lh, 100 ≤ b) ∧
      lastOpHolding.log.lh.length = 28 ∧ (∃ i, (lastOpHolding.bufs i).refcnt = 0) ∧
      (∃ i, (lastOpHolding.bufs i).lock = some 2) ∧
      ∀ i, (lastOpHolding.bufs i).lock = some 2 → (lastOpHolding.bufs i).blockno ∉
        commitBlocks lastOpHolding.log.start lastOpHolding.log.lh := by
    decide +kernel
  obtain ⟨hready, hread, hops, husers, hstart, hlh, hlen, hspare, hheld, hblocks⟩ := hfacts
  have hreach : Reachable (OpCall StrictLimit rootdev) (QuietStart rootdev)
      ⟨lastOpHolding, fun _ => ⟨.ret (), none⟩⟩ :=
    hready.reachable.call 2 (.bread (b := 200)) (Outcome.eq_ok hread)
  have hcommits := last_end_op_commits (p := 2) (reachable_of_limited hreach) rfl hops husers
    (outside_of_le hstart hlh)
  exact ⟨hlen, hheld, hcommits.1.mpr (.inr ⟨hspare, hblocks⟩)⟩

/-- A full log cannot be committed. Three operations log ten blocks each, within the
reservation, and every buffer is pinned when the last of them ends: `write_log` finds no buffer
for the first log block. -/
theorem full_log_not_committed :
    ∃ s : Store (Fin 3),
      Reachable (OpCall StrictLimit rootdev) (QuietStart rootdev)
        ⟨s, fun _ => ⟨.ret (), none⟩⟩ ∧
      s.oh.ops = [2] ∧ (∀ i, s.ch.users i = []) ∧ s.log.lh.length ≤ logblocks ∧
      (∀ b ∈ s.log.lh, ¬ InLog s.log.start b) ∧
      ∃ s', endOp.exec 2 s = .panic "bget: no buffers" s' := by
  have hfacts : LastOpReady 30 ∧ (endOp.exec 2 (lastOp 30)).message = some "bget: no buffers" := by
    decide +kernel
  obtain ⟨hready, hpanic⟩ := hfacts
  have hreach := hready.reachable
  obtain ⟨-, -, -, hops, husers, hlen, hstart, hlh⟩ := hready
  exact ⟨lastOp 30, hreach, hops, husers, hlen.le, outside_of_le hstart hlh, _,
    Outcome.eq_panic hpanic⟩

end RiscvKernel
