import RiscvKernel.Pipe.Model

/-!
# A pipe is a loss-free FIFO

Every byte stored is delivered or still in the ring, in order, whatever the readers and
writers do and however often the counters wrap. A process sleeps only while it has a reason
to: each section that removes the reason wakes the channel.
-/

namespace RiscvKernel

open Threads Function

/-! ## The ring -/

/-- The ring divides the range of the counters, so wrapping does not disturb it. -/
theorem pipesize_dvd : pipesize ∣ 2 ^ 32 := by decide

/-- The counters agree exactly when no byte is in the ring. -/
theorem Pipe.empty_iff {pi : Pipe} : pi.Empty ↔ pi.used = 0 := by
  rw [Pipe.used, Ring.used_eq_zero pi.nread.toNat_lt pi.nwrite.toNat_lt, UInt32.toNat_inj]

/-- The write counter is `used` bytes ahead of the read counter. -/
theorem Pipe.nread_add_used (pi : Pipe) : (pi.nread.toNat + pi.used) % 2 ^ 32 = pi.nwrite.toNat :=
  Ring.add_used pi.nread.toNat_lt pi.nwrite.toNat_lt

/-- The writer's test for a full ring. -/
theorem Pipe.full_iff {pi : Pipe} : pi.Full ↔ pi.used = pipesize := by
  have hnext : (pi.nread + UInt32.ofNat pipesize).toNat = (pi.nread.toNat + pipesize) % 2 ^ 32 := by
    rw [UInt32.toNat_add]
    rfl
  constructor
  · intro h
    refine Ring.used_eq pi.nread.toNat_lt pi.nwrite.toNat_lt (by decide) ?_
    rw [← hnext, ← h]
  · intro h
    rw [Pipe.Full, ← UInt32.toNat_inj, hnext, ← h, pi.nread_add_used]

/-- Storing a byte uses one more cell. -/
theorem Pipe.used_store {pi : Pipe} (h : pi.used < pipesize) (ch : UInt8) :
    (pi.store ch).used = pi.used + 1 := by
  have hlt : pi.used + 1 < 2 ^ 32 := by
    have : pipesize < 2 ^ 32 := by decide
    omega
  have hpush := Ring.used_push pi.nread.toNat_lt pi.nwrite.toNat_lt hlt
  rw [Pipe.used, Pipe.store, UInt32.toNat_add]
  exact hpush

/-- Storing a byte appends it to the contents. -/
theorem Pipe.contents_store {pi : Pipe} (h : pi.used < pipesize) (ch : UInt8) :
    (pi.store ch).contents = pi.contents ++ [ch] := by
  rw [Pipe.contents, Pipe.used_store h]
  exact Ring.contents_push pipesize_dvd pi.nread_add_used h ch

/-- Consuming a byte frees one cell. -/
theorem Pipe.used_advance {pi : Pipe} (h : ¬ pi.Empty) : pi.advance.used + 1 = pi.used := by
  have hne : pi.nread.toNat ≠ pi.nwrite.toNat := fun heq => h (UInt32.toNat_inj.mp heq)
  have hpop := Ring.used_pop pi.nread.toNat_lt pi.nwrite.toNat_lt hne
  rw [Pipe.used, Pipe.advance, UInt32.toNat_add]
  exact hpop

/-- Consuming a byte drops the front of the contents. -/
theorem Pipe.contents_advance {pi : Pipe} (h : ¬ pi.Empty) :
    pi.contents = pi.front :: pi.advance.contents := by
  rw [Pipe.contents, ← Pipe.used_advance h, Ring.contents_pop pipesize_dvd, Pipe.contents,
    Pipe.advance, UInt32.toNat_add]
  rfl

/-! ## The contract -/

variable {P : Type}

/-- What every returned call has told its caller. -/
structure PipeReturn.Ok (r : PipeReturn) : Prop where
  /-- A result that is not an error is the number of bytes moved. -/
  count : 0 ≤ r.result → r.result = r.moved
  /-- A reader that asks for bytes and gets none has met the end of the stream. -/
  eof : r.op = .read → 0 < r.n → r.result = 0 → r.drained = true

/-- The invariant of a pipe between critical sections. -/
structure PipeInv (s : PipeState P) : Prop where
  /-- The ring never overflows. -/
  used : s.pipe.used ≤ pipesize
  /-- No byte is lost, duplicated or reordered. -/
  stream : s.hist.stored = s.hist.delivered ++ s.pipe.contents
  /-- The calls that have returned told the truth. -/
  returns : ∀ r ∈ s.hist.returns, r.Ok

/-- The reason for which a process may sleep on a channel. -/
def PipeWait (c : PipeChan) (s : PipeState P) : Prop :=
  match c with
  | .nread => s.pipe.Empty ∧ s.pipe.writeopen = true
  | .nwrite => s.pipe.Full ∧ s.pipe.readopen = true

/-- What a section of `q` leaves alone for the others. -/
structure PipeGuar (q : P) (s : PipeState P) (w : List PipeChan) (s' : PipeState P) : Prop where
  /-- The bytes of the other calls stay counted. -/
  moved : ∀ p, p ≠ q → s'.hist.moved p = s.hist.moved p
  /-- A reason to sleep goes away with a wakeup. -/
  wait : ∀ c, c ∉ w → PipeWait c s → PipeWait c s'

/-- The contract of the processes that share a pipe. -/
def pipeContract (P : Type) : Contract P (PipeState P) PipeChan where
  ok _ := True
  inv := PipeInv
  guar := PipeGuar
  wait := PipeWait
  mayPanic _ _ := False
  wait_guar _ hguar _ hwait hw := hguar.wait _ hw hwait

theorem PipeGuar.refl (q : P) (s : PipeState P) (w : List PipeChan) : PipeGuar q s w s :=
  ⟨fun _ _ => rfl, fun _ _ h => h⟩

theorem PipeGuar.trans {q : P} {s s1 s2 : PipeState P} {w : List PipeChan}
    (h : PipeGuar q s w s1) (h' : PipeGuar q s1 w s2) : PipeGuar q s w s2 :=
  ⟨fun p hp => (h'.moved p hp).trans (h.moved p hp),
    fun c hc hw => h'.wait c hc (h.wait c hc hw)⟩

/-- Noting a return changes nothing that others see. -/
theorem PipeGuar.note {q : P} {s s' : PipeState P} {w : List PipeChan} (h : PipeGuar q s w s')
    (op : PipeOp) (n r : ℤ) : PipeGuar q s w (s'.note q op n r) :=
  ⟨h.moved, fun c hc hw => by cases c <;> exact h.wait _ hc hw⟩

/-- Noting a truthful return keeps the invariant. -/
theorem PipeInv.note {s : PipeState P} (h : PipeInv s) {p : P} {op : PipeOp} {n r : ℤ}
    (hcount : 0 ≤ r → r = s.hist.moved p)
    (heof : op = .read → 0 < n → r = 0 → s.pipe.Empty ∧ s.pipe.writeopen = false) :
    PipeInv (s.note p op n r) := by
  refine ⟨h.used, h.stream, ?_⟩
  intro ret hret
  rcases List.mem_cons.mp hret with rfl | hret
  · exact ⟨hcount, fun hop hn hr => decide_eq_true (heof hop hn hr)⟩
  · exact h.returns ret hret

variable [DecidableEq P]

/-- The number of bytes that the current call of `p` has moved. -/
def Moved (p : P) (i : ℕ) (s : PipeState P) : Prop := s.hist.moved p = i

/-- Moving one more byte. -/
theorem Moved.succ {p : P} {i : ℕ} {s s' : PipeState P} (h : Moved p i s)
    (hs' : s'.hist.moved = update s.hist.moved p (s.hist.moved p + 1)) :
    Moved p (i + 1) s' := by
  rw [Moved, hs', update_self, h]

omit [DecidableEq P] in
/-- Nobody else counts the bytes of `p`. -/
theorem moved_stable (p : P) (i : ℕ) : (pipeContract P).Stable p (Moved p i) := by
  rintro s s' h ⟨q, w, hq, -, hguar, -⟩
  exact (hguar.moved p hq.symm).trans h

/-- Storing a byte into a ring with room. -/
theorem PipeInv.store {s : PipeState P} (h : PipeInv s) (p : P) (ch : UInt8)
    (hfull : ¬ s.pipe.Full) : PipeInv (s.store p ch) := by
  have hlt : s.pipe.used < pipesize :=
    lt_of_le_of_ne h.used fun heq => hfull (Pipe.full_iff.mpr heq)
  refine ⟨?_, ?_, h.returns⟩
  · show (s.pipe.store ch).used ≤ pipesize
    rw [Pipe.used_store hlt]
    exact hlt
  · show s.hist.stored ++ [ch] = s.hist.delivered ++ (s.pipe.store ch).contents
    rw [Pipe.contents_store hlt, h.stream, List.append_assoc]

/-- A writer that stores a byte owes the readers a wakeup. -/
theorem PipeGuar.store (s : PipeState P) (p : P) (ch : UInt8) (hfull : ¬ s.pipe.Full) :
    PipeGuar p s [.nread] (s.store p ch) := by
  refine ⟨fun q hq => update_of_ne hq _ _, fun c hc hw => ?_⟩
  cases c with
  | nread => exact absurd (List.mem_singleton_self _) hc
  | nwrite => exact absurd hw.1 hfull

/-- Consuming the byte that was copied out. -/
theorem PipeInv.take {s : PipeState P} (h : PipeInv s) (p : P) (hempty : ¬ s.pipe.Empty) :
    PipeInv (s.take p) := by
  refine ⟨?_, ?_, h.returns⟩
  · show s.pipe.advance.used ≤ pipesize
    have := Pipe.used_advance hempty
    have := h.used
    omega
  · show s.hist.stored = s.hist.delivered ++ [s.pipe.front] ++ s.pipe.advance.contents
    rw [h.stream, Pipe.contents_advance hempty, List.append_assoc]
    rfl

/-- A reader that consumes a byte owes the writers a wakeup. -/
theorem PipeGuar.take (s : PipeState P) (p : P) (hempty : ¬ s.pipe.Empty) :
    PipeGuar p s [.nwrite] (s.take p) := by
  refine ⟨fun q hq => update_of_ne hq _ _, fun c hc hw => ?_⟩
  cases c with
  | nread => exact absurd hw.1 hempty
  | nwrite => exact absurd (List.mem_singleton_self _) hc

/-! ## The critical sections -/

/-- The loop of `pipewrite`, entered in `s0` and now in `s`. Once a byte is stored the loop
has seen the pipe open and the process alive, and neither can change under the lock: so the
early return, which wakes nobody, only happens in the state the section was entered in. -/
theorem pipewriteLoop_good {src : ℕ → Option UInt8} {n : ℤ} {p : P} {s0 : PipeState P}
    (left i : ℕ) (s : PipeState P) (hinv : PipeInv s) (hguar : PipeGuar p s0 [.nread] s)
    (hmoved : Moved p i s)
    (hopen : s = s0 ∨ s.pipe.readopen = true ∧ s.killed p = false) :
    (pipeContract P).Good p s0 (Moved p) (fun _ _ => True) (pipewriteLoop src n p left i s) := by
  have hreturn : ∀ (j : ℕ) (t : PipeState P), PipeInv t → PipeGuar p s0 [.nread] t → Moved p j t →
      PipeInv (t.note p .write n j) ∧ PipeGuar p s0 [.nread] (t.note p .write n j) ∧ True := by
    intro j t hinv hguar hmoved
    refine ⟨hinv.note (fun _ => ?_) (fun h => nomatch h), hguar.note .., trivial⟩
    rw [hmoved]
  induction left generalizing i s with
  | zero => exact fun _ => hreturn i s hinv hguar hmoved
  | succ left ih =>
    simp only [pipewriteLoop]
    split
    · rename_i hstop
      intro _
      have hs : s = s0 := by
        refine hopen.resolve_right fun hrun => ?_
        rw [hrun.1, hrun.2] at hstop
        simp at hstop
      subst hs
      exact ⟨hinv.note (fun h => absurd h (by decide)) (fun h => nomatch h),
        (PipeGuar.refl p s []).note .., trivial⟩
    · rename_i hrun
      have hrun' : s.pipe.readopen = true ∧ s.killed p = false := by simpa using hrun
      split
      · rename_i hfull
        exact fun _ => ⟨hinv, hguar, ⟨hfull, hrun'.1⟩, hmoved⟩
      · rename_i hroom
        cases src i with
        | none => exact fun _ => hreturn i s hinv hguar hmoved
        | some ch =>
          exact ih (i + 1) (s.store p ch) (hinv.store p ch hroom)
            (hguar.trans (PipeGuar.store s p ch hroom)) (hmoved.succ rfl) (.inr hrun')

/-- The copy loop of `piperead`: it counts what it consumes, and stops early only at an empty
ring or at a byte it cannot copy out. -/
theorem pipereadLoop_spec (dst : ℕ → Bool) {p : P} {s0 : PipeState P} (left i : ℕ)
    (s : PipeState P) (hinv : PipeInv s) (hguar : PipeGuar p s0 [.nwrite] s)
    (hmoved : Moved p i s) :
    ∃ r t, pipereadLoop dst p left i s = (r, t) ∧ PipeInv t ∧ PipeGuar p s0 [.nwrite] t ∧
      (r = -1 ∨ (i : ℤ) ≤ r ∧ r = t.hist.moved p) ∧ (r = 0 → 0 < left → t = s ∧ s.pipe.Empty) := by
  induction left generalizing i s with
  | zero =>
    refine ⟨i, s, rfl, hinv, hguar, .inr ⟨le_rfl, ?_⟩, fun _ h => absurd h (by omega)⟩
    rw [hmoved]
  | succ left ih =>
    simp only [pipereadLoop]
    by_cases hempty : s.pipe.Empty
    · refine ⟨i, s, if_pos hempty, hinv, hguar, .inr ⟨le_rfl, ?_⟩, fun _ _ => ⟨rfl, hempty⟩⟩
      rw [hmoved]
    · rw [if_neg hempty]
      by_cases hdst : dst i = false
      · rw [if_pos hdst]
        by_cases hi : i = 0
        · exact ⟨-1, s, by rw [if_pos hi], hinv, hguar, .inl rfl, fun h => by omega⟩
        · refine ⟨i, s, by rw [if_neg hi], hinv, hguar, .inr ⟨le_rfl, ?_⟩, fun h => by omega⟩
          rw [hmoved]
      · rw [if_neg hdst]
        obtain ⟨r, t, heq, hinv', hguar', hr, -⟩ := ih (i + 1) (s.take p)
          (hinv.take p hempty) (hguar.trans (PipeGuar.take s p hempty)) (hmoved.succ rfl)
        -- A byte has been consumed, so the result is not zero.
        refine ⟨r, t, heq, hinv', hguar', hr.imp_right fun h => ⟨by omega, h.2⟩, fun h => ?_⟩
        rcases hr with hr | hr <;> omega

/-- A critical section of `piperead`. -/
theorem pipereadSection_good {dst : ℕ → Bool} {n : ℤ} {p : P} {s : PipeState P}
    (hinv : PipeInv s) (hmoved : Moved p 0 s) :
    (pipeContract P).Good p s (fun _ => Moved p 0) (fun _ _ => True)
      (pipereadSection dst n p s) := by
  unfold pipereadSection
  split
  · rename_i hwait
    split
    · exact fun _ => ⟨hinv.note (fun h => absurd h (by decide)) (fun _ _ h => absurd h (by decide)),
        (PipeGuar.refl p s []).note .., trivial⟩
    · exact fun _ => ⟨hinv, PipeGuar.refl p s [], hwait, hmoved⟩
  · rename_i hgo
    obtain ⟨r, t, heq, hinv', hguar', hr, hzero⟩ :=
      pipereadLoop_spec dst n.toNat 0 s hinv (PipeGuar.refl p s _) hmoved
    rw [heq]
    refine fun _ => ⟨hinv'.note (fun h => ?_) (fun _ hn h0 => ?_), hguar'.note .., trivial⟩
    · exact (hr.resolve_left (by omega)).2
    · obtain ⟨rfl, hempty⟩ := hzero h0 (by omega)
      exact ⟨hempty, Bool.eq_false_iff.mpr fun hopen => hgo ⟨hempty, hopen⟩⟩

omit [DecidableEq P] in
/-- Closing an end wakes the other side. -/
theorem pipeclose_safe (writable : Bool) (p : P) (s : PipeState P) :
    (pipeContract P).Safe p (pipeclose writable) (fun _ _ => True) s := by
  refine .step (A := fun _ => True) trivial (fun _ _ _ _ => trivial) ?_
  intro s' _ hinv'
  split
  · trivial
  · refine fun _ => ⟨?_, ⟨fun _ _ => rfl, fun c hc hw => ?_⟩, trivial⟩
    · cases writable
      all_goals exact ⟨hinv'.used, hinv'.stream, hinv'.returns⟩
    · cases writable <;> cases c
      all_goals first | exact hw | exact absurd (List.mem_singleton_self _) hc

/-- Every call keeps the contract. -/
theorem pipeCall_safe {p : P} {s : PipeState P} {m : PipeProg P Unit}
    (hcall : PipeCall p s m) : (pipeContract P).Safe p m (fun _ _ => True) s := by
  have htrue : (pipeContract P).Stable p fun _ => True := fun _ _ _ _ => trivial
  have hstart : (pipeContract P).Safe p (Prog.update fun p s => ((), s.start p))
      (fun _ => Moved p 0) s := by
    refine .update (A := fun _ => True) trivial htrue fun s' _ hinv' => ⟨?_, ?_, ?_⟩
    · exact ⟨hinv'.used, hinv'.stream, hinv'.returns⟩
    · exact ⟨fun q hq => update_of_ne hq _ _, fun c _ hw => by cases c <;> exact hw⟩
    · exact update_self ..
  cases hcall with
  | pipewrite src n =>
    refine (hstart.bind fun _ s' h => ?_).bind (Q := fun _ _ => True) fun _ _ _ => trivial
    refine ⟨Moved p, h, moved_stable p, fun i s1 hmoved hinv1 => ?_⟩
    dsimp only
    split
    · trivial
    · exact pipewriteLoop_good _ i s1 hinv1 (PipeGuar.refl p s1 _) hmoved (.inl rfl)
  | piperead dst n =>
    refine (hstart.bind fun _ s' h => ?_).bind (Q := fun _ _ => True) fun _ _ _ => trivial
    refine ⟨fun _ => Moved p 0, h, fun _ => moved_stable p 0, fun _ s1 hmoved hinv1 => ?_⟩
    dsimp only
    split
    · trivial
    · exact pipereadSection_good hinv1 hmoved
  | pipeclose writable => exact pipeclose_safe writable p s
  | kkill victim =>
    refine .update (A := fun _ => True) trivial htrue fun s' _ hinv' => ⟨?_, ?_, trivial⟩
    · exact ⟨hinv'.used, hinv'.stream, hinv'.returns⟩
    · exact ⟨fun _ _ => rfl, fun c _ hw => by cases c <;> exact hw⟩

/-- The contract holds whatever any number of readers and writers do. -/
theorem pipe_holds {c : Config P (PipeState P) PipeChan} (hc : Reachable PipeCall PipeStart c) :
    Contract.Holds (pipeContract P) (fun _ _ => True) c := by
  refine Contract.holds_of_reachable (fun _ _ _ _ _ => trivial)
    (fun _ _ _ _ _ hcall => pipeCall_safe hcall) (fun s hs => ⟨?_, fun _ => trivial⟩) hc
  have hused : s.pipe.used = 0 := by
    rw [← Pipe.empty_iff, Pipe.Empty, hs.nread, hs.nwrite]
  refine ⟨by omega, ?_, ?_⟩
  · rw [hs.stored, hs.delivered, Pipe.contents, hused]
    rfl
  · rw [hs.returns]
    intro r hr
    cases hr

/-- **Pipes are loss-free FIFOs.** However readers, writers, closes and kills interleave: the
ring holds at most `PIPESIZE` bytes; the bytes ever stored are those ever delivered followed by
those in the ring; a result that is not an error counts the bytes the call moved; a reader that
asked for bytes gets 0 only at the end of the stream; and no reader or writer sleeps on when
it could go on. -/
theorem pipe_fifo {c : Config P (PipeState P) PipeChan} (hc : Reachable PipeCall PipeStart c) :
    (c.st.pipe.nwrite - c.st.pipe.nread).toNat ≤ pipesize ∧
    c.st.hist.stored = c.st.hist.delivered ++ c.st.pipe.contents ∧
    (∀ r ∈ c.st.hist.returns, 0 ≤ r.result → r.result = r.moved) ∧
    (∀ r ∈ c.st.hist.returns, r.op = .read → 0 < r.n → r.result = 0 → r.drained = true) ∧
    (∀ p, (c.thread p).asleep = some .nread → c.st.pipe.Empty ∧ c.st.pipe.writeopen = true) ∧
    ∀ p, (c.thread p).asleep = some .nwrite → c.st.pipe.Full ∧ c.st.pipe.readopen = true := by
  have hholds := pipe_holds hc
  refine ⟨?_, hholds.inv.stream, fun r hr => (hholds.inv.returns r hr).count,
    fun r hr => (hholds.inv.returns r hr).eof, fun p => hholds.wait p _, fun p => hholds.wait p _⟩
  have hused := hholds.inv.used
  rw [Pipe.used, Ring.used] at hused
  rw [UInt32.toNat_sub]
  have hcomm : 2 ^ 32 - c.st.pipe.nread.toNat + c.st.pipe.nwrite.toNat =
      c.st.pipe.nwrite.toNat + 2 ^ 32 - c.st.pipe.nread.toNat := by
    have := c.st.pipe.nread.toNat_lt
    omega
  rwa [hcomm]

/-- A pipe as `pipealloc` leaves it, in a page full of junk. -/
def freshPipe : PipeState Bool where
  pipe := { data := fun _ => 5, nread := 0, nwrite := 0, readopen := true, writeopen := true }
  freed := false
  killed := fun _ => false
  hist := { stored := [], delivered := [], moved := fun _ => 0, returns := [] }

/-- One process writes three bytes and closes its end; the other reads two of them. -/
def readTwo : PipeState Bool :=
  let s := ((pipewrite (fun i => some (UInt8.ofNat (7 + i))) 3).exec true freshPipe).state
  let s := ((pipeclose true).exec true s).state
  ((piperead (fun _ => true) 2).exec false s).state

set_option maxRecDepth 4000 in
/-- The third byte is still in the ring. -/
theorem readTwo_fifo :
    readTwo.hist.stored = [7, 8, 9] ∧ readTwo.hist.delivered = [7, 8] ∧
      readTwo.pipe.contents = [9] := by
  have h : Reachable PipeCall PipeStart
      (⟨freshPipe, fun _ => ⟨.ret (), none⟩⟩ : Config Bool _ PipeChan) :=
    ReachableWhile.start ⟨rfl, rfl, rfl, rfl, rfl, rfl, rfl⟩
  have h := h.call true (.pipewrite (fun i => some (UInt8.ofNat (7 + i))) 3) rfl
  have h := h.call true (.pipeclose true) rfl
  have h := h.call false (.piperead (fun _ => true) 2) rfl
  obtain ⟨-, hstream, -⟩ := pipe_fifo h
  refine ⟨rfl, rfl, ?_⟩
  have happend : [7, 8] ++ [9] = [7, 8] ++ readTwo.pipe.contents := hstream
  exact (List.append_cancel_left happend).symm

end RiscvKernel
