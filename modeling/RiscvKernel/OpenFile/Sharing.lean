import RiscvKernel.OpenFile.Sections
import RiscvKernel.Fs.Contents

/-!
# Sharing an open file

The offset of an open file is read and advanced while its inode is locked. Therefore the chunks
that the sharers move, in whatever order their sections run, follow one another in the file.
-/

namespace RiscvKernel.OpenFile

open Threads Function

variable {P : Type}

/-- The parts of the file that were moved. -/
def fileRanges (chunks : List Chunk) : List (ℕ × ℕ) := chunks.map fun c => (c.off, c.len)

/-- The parts of the buffer that were moved. -/
def bufRanges (chunks : List Chunk) : List (ℕ × ℕ) := chunks.map fun c => (c.buf, c.len)

/-- A `write` that has returned has told the truth. -/
structure WriteTold (file : File) (ret : Return) : Prop where
  /-- The chunks are consecutive parts of the buffer. -/
  pieces : Ranges.Consecutive 0 (bufRanges ret.chunks)
  /-- They are within the buffer. -/
  total_le : Ranges.total (bufRanges ret.chunks) ≤ ret.n.toNat
  /-- The result is the count exactly when the file may be written and all bytes are. -/
  all : ret.result = ret.n ↔
    file.writable = true ∧ (Ranges.total (bufRanges ret.chunks) : ℤ) = ret.n
  /-- Otherwise the call fails. -/
  error : ret.result ≠ ret.n → ret.result = -1

/-- The invariant of an open file that was `file` at first. -/
structure Inv (file : File) (s : State P) : Prop where
  /-- Only the offset changes. -/
  file_eq : s.file = { file with off := s.file.off }
  /-- It is the first offset and all that was moved. -/
  off : s.file.off = file.off + Ranges.total (fileRanges s.hist.chunks)
  /-- The chunks follow one another in the file. -/
  consecutive : Ranges.Consecutive file.off (fileRanges s.hist.chunks)
  /-- Those of a call follow one another in its buffer. -/
  pieces : ∀ p, Ranges.Consecutive 0 (bufRanges (s.hist.current p))
  /-- What is known of a `write`. -/
  write : ∀ ret ∈ s.hist.returns, ret.op = .write → file.type = .inode → 0 ≤ ret.n →
    WriteTold file ret

/-- A section of `p` leaves alone what the other processes have moved. -/
def Frame (p : P) (s s' : State P) : Prop :=
  ∀ q, q ≠ p → s'.hist.current q = s.hist.current q

/-- The contract of the sharers. Nobody promises to wake anybody here, and panics are not
excluded. -/
def fileContract (P : Type) (file : File) : Contract P (State P) PipeChan where
  ok _ := True
  inv := Inv file
  guar p s _ s' := Frame p s s'
  wait _ _ := True
  mayPanic _ _ := True
  wait_guar _ _ _ _ _ := trivial

/-- An assertion about what the current call of `p` has moved. -/
def Local (p : P) (A : List Chunk → Prop) (s : State P) : Prop := A (s.hist.current p)

/-- Nobody else changes what `p` has asserted about its call. -/
theorem local_stable (file : File) (p : P) (A : List Chunk → Prop) :
    (fileContract P file).Stable p (Local p A) := by
  rintro s s' h ⟨q, w, hq, -, hframe, -⟩
  unfold Local
  rw [hframe p hq.symm]
  exact h

variable {file : File} {p : P} {s s' : State P} {A : List Chunk → Prop}

/-- What does not touch the file and the history keeps everything. -/
theorem Inv.congr (h : Inv file s) (hfile : s'.file = s.file) (hhist : s'.hist = s.hist) :
    Inv file s' := by
  constructor
  · rw [hfile]
    exact h.file_eq
  · rw [hfile, hhist]
    exact h.off
  · rw [hhist]
    exact h.consecutive
  · rw [hhist]
    exact h.pieces
  · rw [hhist]
    exact h.write

/-- It leaves alone what the other processes have moved. -/
theorem Frame.of_hist (hhist : s'.hist = s.hist) : Frame p s s' := fun q _ => by rw [hhist]

variable [DecidableEq P]

/-- The call of `p` begins. -/
theorem start_spec (h : Inv file s) (p : P) :
    Inv file (s.start p) ∧ Frame p s (s.start p) ∧ Local p (· = []) (s.start p) := by
  refine ⟨⟨h.file_eq, h.off, h.consecutive, fun q => ?_, h.write⟩,
    fun q hq => update_of_ne hq _ _, update_self _ _ _⟩
  change Ranges.Consecutive 0 (bufRanges (update s.hist.current p [] q))
  by_cases hq : q = p
  · subst hq
    rw [update_self]
    trivial
  · rw [update_of_ne hq]
    exact h.pieces q

omit [DecidableEq P] in
/-- The call of `p` returns. -/
theorem finish_spec (h : Inv file s) (op : Op) (n r : ℤ)
    (hwrite : op = .write → file.type = .inode → 0 ≤ n →
      Local p (fun current => WriteTold file ⟨.write, n, r, current⟩) s) :
    Inv file (s.finish p op n r) ∧ Frame p s (s.finish p op n r) := by
  refine ⟨⟨h.file_eq, h.off, h.consecutive, h.pieces, ?_⟩, fun _ _ => rfl⟩
  intro ret hret hop htype hn
  rcases List.mem_cons.mp hret with rfl | hret
  · cases hop
    exact hwrite rfl htype hn
  · exact h.write ret hret hop htype hn

/-- What `f->off += r` does, when the sum fits. -/
theorem advance_spec (h : Inv file s) (buf : ℕ) (r : ℤ)
    (hbuf : buf = Ranges.total (bufRanges (s.hist.current p)))
      (hfit : 0 < r → s.file.off + r < 2 ^ 32)
    (hA : ∀ chunk : Chunk, 0 < r → chunk.buf = buf → chunk.len = r.toNat →
      A (s.hist.current p ++ [chunk]))
    (hnone : ¬ 0 < r → Local p A s) :
    Inv file (s.advance p buf r) ∧ Frame p s (s.advance p buf r) ∧
      Local p A (s.advance p buf r) := by
  unfold State.advance
  by_cases hr : 0 < r
  · rw [if_pos hr]
    have hmod : (s.file.off + r.toNat) % 2 ^ 32 = s.file.off + r.toNat := by
      have := hfit hr
      omega
    rw [hmod]
    refine ⟨⟨?_, ?_, ?_, fun q => ?_, h.write⟩, fun q hq => update_of_ne hq _ _, ?_⟩
    · dsimp only
      rw [h.file_eq]
    · have hoff := h.off
      simp only [fileRanges, List.map_append, Ranges.total_append] at hoff ⊢
      simp only [List.map_cons, List.map_nil, Ranges.total_cons, Ranges.total_nil]
      omega
    · have hnext := h.consecutive.snoc r.toNat
      rw [← h.off] at hnext
      simpa only [fileRanges, List.map_append, List.map_cons, List.map_nil] using hnext
    · change Ranges.Consecutive 0 (bufRanges (update s.hist.current p _ q))
      by_cases hq : q = p
      · subst hq
        rw [update_self]
        have hnext := (h.pieces q).snoc r.toNat
        rw [Nat.zero_add, ← hbuf] at hnext
        simpa only [bufRanges, List.map_append, List.map_cons, List.map_nil] using hnext
      · rw [update_of_ne hq]
        exact h.pieces q
    · change A (update s.hist.current p _ p)
      rw [update_self]
      exact hA _ hr rfl rfl
  · rw [if_neg hr]
    exact ⟨h, Frame.of_hist rfl, hnone hr⟩

/-! ## Reading -/

/-- The section of `fileread` on an inode. -/
theorem readSection_good {sb : Superblock} {writable : ℕ → Bool} {addr : ℕ} {n : ℤ}
    (hinv : Inv file s) (hq : Local p (· = []) s) :
    (fileContract P file).Good p s (fun _ => Local p (· = [])) (fun _ _ => True)
      (readSection sb writable addr n p s) := by
  unfold readSection
  split
  · trivial
  generalize hrun : (do
    iload sb s.file.ip
    readi sb s.file.ip (.user writable) addr s.file.off (uint n) (s.mem p) : FsM (ℤ × Mem)) s.fs = o
  match o with
  | .panic msg fs => trivial
  | .stuck fs => trivial
  | .ok (r, mem) fs =>
    obtain ⟨-, fs1, -, hread⟩ := Seq.bind_eq_ok hrun
    obtain ⟨-, hfit, -⟩ := readi_ok hread
    have hwith : Inv file { s with fs := fs, mem := update s.mem p mem } :=
      hinv.congr rfl rfl
    exact fun _ => advance_spec (A := fun _ => True) hwith 0 r (by rw [hq]; rfl) hfit
      (fun _ _ _ _ => trivial) fun _ => trivial

/-- `piperead` does not move the offset. -/
theorem readPipe_safe {writable : ℕ → Bool} {addr : ℕ} {n : ℤ} :
    (fileContract P file).Safe p (readPipe writable addr n) (fun _ _ => True) s := by
  refine .bind (Q := fun _ _ => True) (.update (A := fun _ => True)
    trivial (fun _ _ _ _ => trivial) fun s' _ hinv => ?_) fun _ s' _ => ?_
  · exact ⟨hinv.congr rfl rfl, Frame.of_hist rfl, trivial⟩
  refine ⟨fun _ _ => True, trivial, fun _ _ _ _ _ => trivial, fun _ s _ hinv => ?_⟩
  dsimp only
  split
  · trivial
  split
  · exact fun _ => ⟨hinv.congr rfl rfl, Frame.of_hist rfl, trivial⟩
  · exact fun _ => ⟨hinv.congr rfl rfl, Frame.of_hist rfl, trivial, trivial⟩
  · trivial
  · trivial

/-- `sys_read`. -/
theorem sysRead_safe {sb : Superblock} {writable : ℕ → Bool} {addr : ℕ} {n : ℤ} :
    (fileContract P file).Safe p (sysRead sb writable addr n) (fun _ _ => True) s := by
  refine .bind (Q := fun _ => Local p (· = [])) (.update
    (A := fun _ => True) trivial (fun _ _ _ _ => trivial) fun s' _ hinv => start_spec hinv p)
    fun _ s hq => ?_
  have hread : (fileContract P file).Safe p (fileread sb writable addr n) (fun _ _ => True) s := by
    refine .bind (Q := fun _ => Local p (· = []))
      (.update hq (local_stable file p _) fun s' hq' hinv => ?_) fun f s hq => ?_
    · exact ⟨hinv, Frame.of_hist rfl, hq'⟩
    split
    · trivial
    split
    · exact readPipe_safe
    · trivial
    · exact .step hq (local_stable file p _) fun s' hq' hinv =>
        readSection_good hinv hq'
    · exact .step hq (local_stable file p _) fun _ _ _ => trivial
  refine .bind hread fun r s _ => ?_
  refine .update (A := fun _ => True) trivial (fun _ _ _ _ => trivial)
    fun s' _ hinv => ?_
  obtain ⟨h1, h2⟩ := finish_spec hinv .read n r (p := p) (fun hop => nomatch hop)
  exact ⟨h1, h2, trivial⟩

/-! ## Writing -/

/-- The current call of `p` has moved `i` bytes. -/
def Written (p : P) (i : ℕ) : State P → Prop :=
  Local p fun current => Ranges.total (bufRanges current) = i

/-- One chunk of `filewrite`: a full chunk counts as a whole, and a short one is the last. -/
theorem writeSection_good {sb : Superblock} {present : ℕ → Bool} {addr i n1 : ℕ}
    (hn0 : 0 < n1) (hn1 : n1 < 2 ^ 32) (hinv : Inv file s) (hw : Written p i s) :
    (fileContract P file).Good p s (fun _ => Written p i)
      (fun (r : ℤ) => Local p fun current => ∃ k ≤ n1,
        Ranges.total (bufRanges current) = i + k ∧ (r = n1 ↔ k = n1))
      (writeSection sb present addr i n1 p s) := by
  unfold writeSection
  split
  · trivial
  generalize hrun : (do
    iload sb s.file.ip
    writei sb s.file.ip (.user (s.mem p) present) (addr + i) s.file.off n1 : FsM ℤ) s.fs = o
  match o with
  | .panic msg fs => trivial
  | .stuck fs => trivial
  | .ok r fs =>
    obtain ⟨-, fs1, -, hwrite⟩ := Seq.bind_eq_ok hrun
    obtain ⟨hr, hfit⟩ := writei_ok hn1 hwrite
    have hmax : maxfile * bsize < 2 ^ 32 := by decide
    intro _
    have hwith : Inv file { s with fs := fs } := hinv.congr rfl rfl
    refine advance_spec hwith i r hw.symm (fun hpos => ?_) (fun chunk hpos _ hlen => ?_)
      (fun hneg => ?_)
    · have := hfit hpos
      dsimp only
      omega
    · refine ⟨r.toNat, by omega, ?_, by omega⟩
      have hw : Ranges.total (bufRanges (s.hist.current p)) = i := hw
      unfold bufRanges at hw ⊢
      rw [List.map_append, Ranges.total_append, hw, List.map_singleton, Ranges.total_cons, hlen]
      rfl
    · refine ⟨0, Nat.zero_le _, hw, ?_⟩
      omega

/-- The loop of `filewrite`. -/
theorem writeFrom_safe {sb : Superblock} {present : ℕ → Bool} {addr n fuel i : ℕ} (hi : i ≤ n)
    (hfuel : n ≤ i + fuel) (hw : Written p i s) :
    (fileContract P file).Safe p (writeFrom sb present addr n fuel i)
      (fun r => Local p fun current => Ranges.total (bufRanges current) ≤ n ∧
        (r = n ↔ Ranges.total (bufRanges current) = n)) s := by
  -- The induction is on the fuel; each full chunk has at least one byte.
  induction fuel generalizing i s with
  | zero =>
    have hw : Ranges.total (bufRanges (s.hist.current p)) = i := hw
    refine ⟨by omega, by omega⟩
  | succ fuel ih =>
    rw [writeFrom]
    split
    · rename_i hlt
      have hpos : 0 < min (n - i) maxWrite := by
        have : 0 < maxWrite := by decide
        omega
      have hle : min (n - i) maxWrite ≤ n - i := Nat.min_le_left _ _
      have hbound : min (n - i) maxWrite < 2 ^ 32 := (Nat.min_le_right _ _).trans_lt (by decide)
      generalize min (n - i) maxWrite = n1 at hpos hle hbound
      refine .bind (.step hw (local_stable file p _)
        fun s' hw' hinv => writeSection_good hpos hbound hinv hw') ?_
      rintro r s' ⟨k, hk, htotal, hfull⟩
      split
      · rename_i hr
        refine ih (by omega) (by omega) ?_
        rw [← hfull.mp hr]
        exact htotal
      · rename_i hr
        refine ⟨by omega, by omega⟩
    · have hw : Ranges.total (bufRanges (s.hist.current p)) = i := hw
      refine ⟨by omega, by omega⟩

/-- What `p` knows when its `filewrite` returns `r`. -/
def WritePost (file : File) (p : P) (n r : ℤ) : State P → Prop :=
  Local p fun current => file.type = .inode → 0 ≤ n →
    Ranges.total (bufRanges current) ≤ n.toNat ∧
    (r = n ↔ file.writable = true ∧ (Ranges.total (bufRanges current) : ℤ) = n) ∧
    (r ≠ n → r = -1)

/-- `pipewrite` is not the business of an inode. -/
theorem writePipe_safe {present : ℕ → Bool} {addr : ℕ} {n : ℤ} (htype : file.type = .pipe) :
    (fileContract P file).Safe p (writePipe present addr n) (WritePost file p n) s := by
  refine .bind (Q := fun _ _ => True) (.update (A := fun _ => True) trivial
    (fun _ _ _ _ => trivial) fun s' _ hinv => ?_) fun _ s' _ => ?_
  · exact ⟨hinv.congr rfl rfl, Frame.of_hist rfl, trivial⟩
  refine ⟨fun _ _ => True, trivial, fun _ _ _ _ _ => trivial, fun i s _ hinv => ?_⟩
  dsimp only
  split
  · trivial
  split
  · refine fun _ => ⟨hinv.congr rfl rfl, Frame.of_hist rfl, fun hinode => ?_⟩
    rw [htype] at hinode
    cases hinode
  · exact fun _ => ⟨hinv.congr rfl rfl, Frame.of_hist rfl, trivial, trivial⟩
  · trivial
  · trivial

/-- `filewrite`. -/
theorem filewrite_safe {sb : Superblock} {present : ℕ → Bool} {addr : ℕ} {n dev : ℤ}
    (hq : Local p (· = []) s) :
    (fileContract P file).Safe p (filewrite sb present addr n dev) (WritePost file p n) s := by
  have hstable := local_stable file p (· = [])
  refine .bind (Q := fun f s => f = { file with off := f.off } ∧ Local p (· = []) s)
    (.update hq hstable fun s' hq' hinv => ?_) ?_
  · exact ⟨hinv, Frame.of_hist rfl, hinv.file_eq, hq'⟩
  rintro f s ⟨hf, hq⟩
  have htype : f.type = file.type := by rw [hf]
  have hwritable : f.writable = file.writable := by rw [hf]
  have hnone : Ranges.total (bufRanges (s.hist.current p)) = 0 := by
    rw [hq]
    rfl
  split
  · rename_i hno
    intro _ hn
    refine ⟨by omega, ⟨fun heq => by omega, fun hand => ?_⟩, fun _ => rfl⟩
    rw [← hwritable, hno] at hand
    exact absurd hand.1 (by decide)
  rename_i hyes
  have hyes : file.writable = true := by
    rw [← hwritable]
    simpa using hyes
  split
  · rename_i hpipe
    exact writePipe_safe (htype.symm.trans hpipe)
  · rename_i hdevice
    intro hinode
    rw [← htype, hdevice] at hinode
    cases hinode
  · refine .bind (writeFrom_safe (Nat.zero_le _) (by omega) hnone) ?_
    rintro i s' ⟨htotal, hall⟩
    intro _ hn
    refine ⟨htotal, ?_, ?_⟩
    · have hcast : (i : ℤ) = n ↔ (Ranges.total (bufRanges (s'.hist.current p)) : ℤ) = n := by omega
      rw [← hcast]
      by_cases heq : (i : ℤ) = n
      · rw [if_pos heq]
        exact ⟨fun _ => ⟨hyes, heq⟩, fun _ => rfl⟩
      · rw [if_neg heq]
        exact ⟨fun hminus => by omega, fun hand => absurd hand.2 heq⟩
    · split
      · rename_i heq
        exact fun hne => absurd rfl hne
      · exact fun _ => rfl
  · exact .step hq hstable fun _ _ _ => trivial

/-- `sys_write`. -/
theorem sysWrite_safe {sb : Superblock} {present : ℕ → Bool} {addr : ℕ} {n dev : ℤ} :
    (fileContract P file).Safe p (sysWrite sb present addr n dev) (fun _ _ => True) s := by
  refine .bind (Q := fun _ => Local p (· = [])) (.update
    (A := fun _ => True) trivial (fun _ _ _ _ => trivial) fun s' _ hinv => start_spec hinv p)
    fun _ s hq => ?_
  refine .bind (filewrite_safe hq) fun r s hpost => ?_
  refine .update hpost (local_stable file p _) fun s' hpost' hinv => ?_
  obtain ⟨h1, h2⟩ := finish_spec hinv .write n r (p := p) (fun _ hinode hn => by
      obtain ⟨htotal, hall, herror⟩ := hpost' hinode hn
      exact ⟨hinv.pieces p, htotal, hall, herror⟩)
  exact ⟨h1, h2, trivial⟩

/-! ## Every interleaving -/

omit [DecidableEq P] in
/-- The invariant holds at the start. -/
theorem Start.inv (h : Start file s) : Inv file s := by
  constructor
  · rw [h.file]
  · rw [h.file, h.chunks]
    rfl
  · rw [h.chunks]
    trivial
  · intro p
    rw [h.current]
    trivial
  · rw [h.returns]
    intro ret hret
    cases hret

/-- The invariant holds however the sharers interleave. -/
theorem inv_of_reachable {sb : Superblock} {c : Config P (State P) PipeChan}
    (h : Reachable (FileCall sb) (Start file) c) : Inv file c.st := by
  have hcalls : ∀ p s m, Inv file s → True → FileCall sb p s m →
      (fileContract P file).Safe p m (fun _ _ => True) s := ?_
  · have hholds : Contract.Holds (fileContract P file) (fun _ _ => True) c :=
      Contract.holds_of_reachable (fun _ _ _ _ _ => trivial) hcalls
        (fun s hs => ⟨hs.inv, fun _ => trivial⟩) h
    exact hholds.inv
  intro p s m hinv _ hcall
  cases hcall with
  | read writable addr n hn => exact sysRead_safe
  | write present addr n dev hn => exact sysWrite_safe
  | user mem =>
    refine .update (A := fun _ => True) trivial (fun _ _ _ _ => trivial)
      fun s' _ hinv' => ?_
    exact ⟨hinv'.congr rfl rfl, Frame.of_hist rfl, trivial⟩
  | other fs pipe =>
    refine .update (A := fun _ => True) trivial (fun _ _ _ _ => trivial)
      fun s' _ hinv' => ?_
    exact ⟨hinv'.congr rfl rfl, Frame.of_hist rfl, trivial⟩

/-- **Sharers do not lose or overwrite each other's data.** However any number of processes that
share an open file interleave their calls, and whatever else happens to the file system: the
offset of the file is the first one and all that was moved so far, so that the chunks follow one
another in the file and are disjoint. The chunks of one call follow one another in its buffer; a
`write` of `n ≥ 0` bytes returns `n` exactly when all of them are written, or else -1. -/
theorem sharers_keep_order {sb : Superblock} {c : Config P (State P) PipeChan}
    (h : Reachable (FileCall sb) (Start file) c) (htype : file.type = .inode) :
    c.st.file.off = file.off + Ranges.total (fileRanges c.st.hist.chunks) ∧
    Ranges.Consecutive file.off (fileRanges c.st.hist.chunks) ∧
    (fileRanges c.st.hist.chunks).Pairwise Ranges.Apart ∧
    (∀ p, Ranges.Consecutive 0 (bufRanges (c.st.hist.current p))) ∧
    ∀ ret ∈ c.st.hist.returns, ret.op = .write → 0 ≤ ret.n → WriteTold file ret := by
  have hinv := inv_of_reachable h
  refine ⟨hinv.off, hinv.consecutive, hinv.consecutive.apart.1, hinv.pieces, ?_⟩
  exact fun ret hret hop hn => hinv.write ret hret hop htype hn

/-- A new file system with an empty file in memory. -/
def fileFs : Fs :=
  freshFs.setInode 0 ⟨2, 1, true, { Dinode.zero with type := tFile, nlink := 1 }⟩

/-- The empty file, open for reading and writing. -/
def emptyFile : File := ⟨.inode, true, true, 0, 0, 0⟩

/-- Two processes share the empty file. -/
def sharedState : State Bool where
  file := emptyFile
  fs := fileFs
  pipe := {
    pipe := { data := fun _ => 0, nread := 0, nwrite := 0, readopen := true, writeopen := true }
    freed := false
    killed := fun _ => false
    hist := { stored := [], delivered := [], moved := fun _ => 0, returns := [] } }
  mem := fun p x => if p then UInt8.ofNat x else 0
  hist := ⟨[], fun _ => [], []⟩

/-- Process `p` writes `n` bytes from address `addr`. -/
def writeShared (p : Bool) (addr : ℕ) (n : ℤ) (s : State Bool) : Outcome (State Bool) Unit :=
  (sysWrite mkfsSb (fun _ => true) addr n 0).exec p s

/-- One process has written three bytes. -/
def firstWrite : Outcome (State Bool) Unit := writeShared true 5 3 sharedState

/-- Then the other has written two. -/
def secondWrite : Outcome (State Bool) Unit := writeShared false 0 2 firstWrite.state

theorem secondWrite_values :
    firstWrite.value = some () ∧ secondWrite.value = some () ∧
      fileRanges secondWrite.state.hist.chunks = [(0, 3), (3, 2)] := by
  decide +kernel

theorem writeShared_reachable {p : Bool} {addr : ℕ} {n : ℤ} {s : State Bool} (hn : n < 2 ^ 31)
    (hs : Reachable (FileCall mkfsSb) (Start emptyFile)
      (⟨s, fun _ => ⟨.ret (), none⟩⟩ : Config Bool _ PipeChan))
    (h : (writeShared p addr n s).value = some ()) :
    Reachable (FileCall mkfsSb) (Start emptyFile)
      (⟨(writeShared p addr n s).state, fun _ => ⟨.ret (), none⟩⟩ : Config Bool _ PipeChan) :=
  hs.call p (.write (fun _ => true) addr n 0 hn) (Outcome.eq_ok h)

/-- The bytes of the second process follow those of the first. -/
theorem secondWrite_shared : secondWrite.state.file.off = 5 ∧
    (fileRanges secondWrite.state.hist.chunks).Pairwise Ranges.Apart := by
  obtain ⟨hfirst, hsecond, hchunks⟩ := secondWrite_values
  have hstart : Reachable (FileCall mkfsSb) (Start emptyFile)
      (⟨sharedState, fun _ => ⟨.ret (), none⟩⟩ : Config Bool _ PipeChan) :=
    ReachableWhile.start ⟨rfl, rfl, fun _ => rfl, rfl⟩
  have h := writeShared_reachable (by decide) (writeShared_reachable (by decide) hstart hfirst)
    hsecond
  obtain ⟨hoff, -, hapart, -⟩ := sharers_keep_order h rfl
  refine ⟨hoff.trans ?_, hapart⟩
  change 0 + Ranges.total (fileRanges secondWrite.state.hist.chunks) = 5
  rw [hchunks]
  rfl

end RiscvKernel.OpenFile
