import RiscvKernel.Heap.Correct
import RiscvKernel.Sys.Sbrk

/-!
# The limits of the allocator

Sizes are kept in 32 bits, and `sbrk` takes an `int`. As long as a program asks for less than
2 ^ 27 units at once and the kernel grants no break above 2 ^ 36 neither can overflow, and the
allocator is correct. Beyond that a size wraps around when free blocks are joined, and `morecore`
asks for less than it means to.
-/

namespace RiscvKernel.Heap

open Threads Function
open Threads.Seq (After bind_apply ok_bind)

variable {s s' : State} {a n m bp low : ℕ}

/-! ## Sizes wrap around -/

/-- The first block that is freed. -/
theorem free_alone (hfreep : s.freep = s.base) (hbase : s.hdr s.base = ⟨s.base, 0⟩)
    (hsize : (s.hdr bp).size = n) (hbp : s.base < bp) (hn : 0 < n)
    (hbrk : bp + headerSize * n ≤ s.brk) (hmax : s.brk ≤ maxva) :
    free (bp + headerSize) s = .ok () { s with
      hdr := update (update s.hdr bp ⟨s.base, n⟩) s.base ⟨bp, 0⟩ } := by
  obtain ⟨base, hdr, freep, brk, limit, refuse, calls, hist⟩ := s
  dsimp only at *
  subst hfreep
  unfold headerSize at hbrk
  have hne : freep ≠ bp := by omega
  have hlt : bp < brk := by omega
  have hlt' : freep < brk := by omega
  have hnot : ¬ bp < freep := by omega
  have hgap : ¬ bp + 16 * n = freep := by omega
  simp [free, place, rounds, joinUpper, joinLower, header_eq, setHeader_eq, setPtr, headerSize, hbp,
    hmax, hlt, hlt', hbase, hsize, hne, hnot, hgap, update]

/-- A block that is freed above the only free block: the sizes are added in 32 bits. -/
theorem free_above (hfreep : s.freep = s.base ∨ s.freep = low) (hbase : s.hdr s.base = ⟨low, 0⟩)
    (hlow : s.hdr low = ⟨s.base, m⟩) (hsize : (s.hdr bp).size = n) (hle : s.base < low)
    (hm : 0 < m) (hbp : low + headerSize * m = bp) (hn : 0 < n)
    (hbrk : bp + headerSize * n ≤ s.brk) (hmax : s.brk ≤ maxva) :
    free (bp + headerSize) s = .ok () { s with
      hdr := update (update s.hdr bp ⟨s.base, n⟩) low ⟨s.base, (m + n) % 2 ^ 32⟩
      freep := low } := by
  obtain ⟨base, hdr, freep, brk, limit, refuse, calls, hist⟩ := s
  dsimp only at *
  unfold headerSize at hbrk hbp
  have hne' : low ≠ bp := by omega
  have hlt : bp < brk := by omega
  have hlt' : base < brk := by omega
  have hlt'' : low < brk := by omega
  have hup : low < bp := by omega
  have hnot : ¬ bp < low := by omega
  have hnot' : ¬ low ≤ base := by omega
  have hnot'' : ¬ bp < base := by omega
  have hgap : ¬ bp + 16 * n = base := by omega
  rcases hfreep with rfl | rfl
  · simp [free, place, rounds, joinUpper, joinLower, header_eq, setHeader_eq, setPtr, setSize,
      headerSize, hbp, hmax, hlt, hlt', hlt'', hbase, hlow, hsize, hne', hup, hle.le, hnot, hnot',
        hnot'',
      hgap, update]
  · simp [free, place, rounds, joinUpper, joinLower, header_eq, setHeader_eq, setPtr, setSize,
      headerSize, hbp, hmax, hlt, hlt'', hlow, hsize, hne', hup, hle.le, hnot'', hgap,
      update]

/-- `morecore` when nothing is free. -/
theorem morecore_alone (hfreep : s.freep = s.base) (hbase : s.hdr s.base = ⟨s.base, 0⟩)
    (hn : n < 2 ^ 27) (hle : s.base < s.brk) (hrefuse : s.refuse s.calls = false)
    (hbrk : s.brk + headerSize * wanted n ≤ s.limit) (hmax : s.limit ≤ maxva) :
    morecore n s = .ok s.base { granted s n with
      hdr := update (update (granted s n).hdr s.brk ⟨s.base, wanted n⟩) s.base
        ⟨s.brk, 0⟩ } := by
  have hpos := (wanted_spec n).2
  have hlt : s.brk < (granted s n).brk := by
    change s.brk < s.brk + headerSize * wanted n
    unfold headerSize
    omega
  have hsize : ((granted s n).hdr s.brk).size = wanted n := by
    change (update s.hdr s.brk _ s.brk).size = wanted n
    rw [update_self]
  have hbase' : (granted s n).hdr s.base = ⟨s.base, 0⟩ := by
    change update s.hdr s.brk _ s.base = _
    rw [update_of_ne hle.ne, hbase]
  unfold morecore
  change (sbrk (wanted n) (toInt (wanted n * headerSize)) >>= _ : HeapM ℕ) s = _
  rw [bind_apply, toInt_wanted hn, sbrk_granted hrefuse hbrk, ok_bind]
  change (setSize s.brk (wanted n) >>= _ : HeapM ℕ) _ = _
  rw [bind_apply, setSize,
    setHeader_eq (s := { granted s n with hdr := s.hdr }) (hbrk.trans hmax) hlt, ok_bind,
    bind_apply]
  change (free (s.brk + headerSize) (granted s n)).bind _ = _
  rw [free_alone (s := granted s n) hfreep hbase' hsize hle hpos le_rfl (hbrk.trans hmax), ok_bind]
  change Outcome.ok s.freep _ = _
  rw [hfreep]
  rfl

/-- `malloc` of a large block when nothing is free. -/
theorem malloc_alone {nbytes : ℕ} (hfreep : s.freep = s.base) (hbase : s.hdr s.base = ⟨s.base, 0⟩)
    (hn : units nbytes = n) (hlarge : 4096 ≤ n) (hsmall : n < 2 ^ 27) (hpos : 0 < s.base)
    (hle : s.base < s.brk) (hrefuse : s.refuse s.calls = false)
    (hbrk : s.brk + headerSize * n ≤ s.limit) (hmax : s.limit ≤ maxva) :
    malloc nbytes s = .ok (s.brk + headerSize) { granted s n with
      hdr := update (update s.hdr s.brk ⟨s.base, n⟩) s.base ⟨s.base, 0⟩ } := by
  have hwanted : wanted n = n := if_neg (by omega)
  have hmore := morecore_alone hfreep hbase hsmall hle hrefuse (by rwa [hwanted]) hmax
  have hlt : s.brk < s.brk + headerSize * n := by
    unfold headerSize
    omega
  have hlt' : s.base < s.brk + headerSize * n := hle.trans hlt
  have hmax' : s.brk + headerSize * n ≤ maxva := hbrk.trans hmax
  have hinit : initRing s = .ok () s := initRing_used (by omega)
  -- The ring after `morecore` is `base` and the new block.
  generalize hs : { granted s n with
    hdr := update (update (granted s n).hdr s.brk ⟨s.base, wanted n⟩) s.base
      ⟨s.brk, 0⟩ } = s1 at hmore
  have hbrk1 : s1.brk = s.brk + headerSize * n := by
    rw [← hs]
    change s.brk + headerSize * wanted n = _
    rw [hwanted]
  have hhdr : s1.hdr = update (update s.hdr s.brk ⟨s.base, n⟩) s.base
      ⟨s.brk, 0⟩ := by
    rw [← hs, hwanted]
    change update (update (update s.hdr s.brk _) s.brk _) s.base _ = _
    rw [update_idem]
  have hbase1 : s1.hdr s.base = ⟨s.brk, 0⟩ := by rw [hhdr, update_self]
  have hblock1 : s1.hdr s.brk = ⟨s.base, n⟩ := by
    rw [hhdr, update_of_ne hle.ne', update_self]
  unfold malloc
  rw [bind_apply, hinit, ok_bind, bind_apply, Seq.gets_apply, ok_bind]
  change Outcome.bind (header s.freep s) _ = _
  rw [hfreep, header_eq (hlt.le.trans hmax') hle, ok_bind, hbase, hn]
  change mallocLoop n (2 * s.brk + 2 + 1 + 1) s.freep s.base s = _
  rw [mallocLoop_succ (hlt.le.trans hmax') hle, hbase, if_neg (by dsimp only; omega),
    if_pos hfreep.symm, extend, bind_apply, hmore, ok_bind, if_neg hpos.ne', bind_apply,
    header_eq (hbrk1 ▸ hmax') (hbrk1 ▸ hlt'), ok_bind, hbase1]
  change mallocLoop n (2 * s.brk + 2 + 1) s.base s.brk s1 = _
  rw [mallocLoop_succ (hbrk1 ▸ hmax') (hbrk1 ▸ hlt), hblock1, if_pos le_rfl, take, bind_apply,
    header_eq (hbrk1 ▸ hmax') (hbrk1 ▸ hlt), ok_bind, hblock1, if_pos rfl, bind_apply, setPtr,
    setHeader_eq (hbrk1 ▸ hmax') (hbrk1 ▸ hlt'), ok_bind, hbase1, hhdr, update_idem, ← hs]
  change Outcome.ok (s.brk + headerSize) ({ granted s n with
    hdr := update (update s.hdr s.brk ⟨s.base, n⟩) s.base ⟨s.base, 0⟩
    freep := s.base } : State) = _
  simp only [granted, hfreep]

/-! ## A correct allocator -/

/-- What a correct allocator guarantees, with the free blocks `fs`. -/
structure Correct (s : State) (fs : List Block) : Prop where
  /-- The blocks in use have no byte in common. -/
  apart : s.hist.live.Pairwise fun b c => Ranges.Apart b.range c.range
  /-- They are aligned. -/
  aligned : ∀ b ∈ s.hist.live, b.addr % headerSize = 0
  /-- After its header each has the bytes it was allocated for. -/
  room : ∀ b ∈ s.hist.live, b.addr + headerSize + s.hist.asked b.addr ≤ b.stop
  /-- They have no byte in common with a free block. -/
  free : ∀ b ∈ fs, ∀ c ∈ s.hist.live, Ranges.Apart b.range c.range
  /-- Once there is a list of free blocks it leads from `base` through them and back to `base`. -/
  circular : s.freep ≠ 0 → Chain.Leads (next s) s.base (fs.map Block.addr) s.base
  /-- Their headers hold their sizes. -/
  size : ∀ b ∈ fs, (s.hdr b.addr).size = b.size
  /-- Their addresses increase. -/
  increasing : (s.base :: fs.map Block.addr).Pairwise (· < ·)
  /-- No two of them are adjacent. -/
  gaps : fs.Pairwise fun b c => b.stop < c.addr
  /-- All blocks together are the memory obtained from the kernel. -/
  cover : ∀ x, Covers fs x ∨ Covers s.hist.live x ↔ Obtained s x

/-- The invariant implies correctness. -/
theorem Inv.correct (h : Inv s) : ∃ fs, Correct s fs := by
  rcases h with h | ⟨fs, h⟩
  · refine ⟨[], ?_, ?_, ?_, List.forall_mem_nil _, fun hne => absurd h.freep hne,
      List.forall_mem_nil _, List.pairwise_singleton _ _, List.Pairwise.nil, ?_⟩
    · rw [h.live]
      exact List.Pairwise.nil
    · rw [h.live]
      exact List.forall_mem_nil _
    · rw [h.live]
      exact List.forall_mem_nil _
    · intro x
      unfold Obtained Covers
      rw [h.live, h.got]
      simp
  · exact ⟨fs, h.apart, fun b hmem => h.blocks b (List.mem_append_right _ hmem), h.room, h.free,
      fun _ => h.ring.leads, h.ring.size, h.ring.increasing, h.ring.sorted, h.cover⟩

/-- The heap of a program that has not used it yet. -/
def freshHeap (limit : ℕ) : State :=
  ⟨4096, fun _ => ⟨0, 0⟩, 0, 16384, limit, fun _ => false, 0, ⟨[], fun _ => 0, [], []⟩⟩

theorem freshHeap_start {limit : ℕ} (hle : 16384 ≤ limit) (hlimit : limit ≤ trapframeVa) :
    Start (freshHeap limit) :=
  ⟨Nat.succ_pos 4095, (by decide : 4096 + headerSize ≤ 16384), (by decide : 16384 % headerSize = 0),
    hle, hlimit, rfl, rfl, rfl⟩

theorem freshHeap_inv : Inv (freshHeap (2 ^ 36)) :=
  (freshHeap_start (by decide) (by decide)).inv le_rfl

/-- Between the calls of a correct program the allocator is correct, and the next call ends, as
long as the kernel grants no break above 2 ^ 36. -/
theorem allocator_correct {start : State} (hstart : Start start) (hlimit : start.limit ≤ 2 ^ 36)
    (h : Seq.Calls Call.run (fun s call => call.Allowed s) start s) :
    (∃ fs, Correct s fs) ∧
      ∀ call : Call, call.Allowed s → ∃ r s', call.run s = .ok r s' := by
  have hinv : Inv s := h.invariant (hstart.inv hlimit) fun s call hinv hallowed =>
    Call.run_runs hinv hallowed
  constructor
  · exact hinv.correct
  · intro call hallowed
    obtain ⟨r, s', hrun, -⟩ := (Call.run_runs hinv hallowed).returns
    exact ⟨r, s', hrun⟩

/-- The program allocates a hundred and two hundred bytes, and frees the first block. -/
theorem allocator_correct_three : ∃ s,
    Seq.Calls Call.run (fun s call => call.Allowed s) (freshHeap (2 ^ 36)) s ∧
      s.hist.live.length = 1 ∧ (∃ fs, Correct s fs) ∧
      ∀ call : Call, call.Allowed s → ∃ r s', call.run s = .ok r s' := by
  let s1 := ((Call.malloc 100).run (freshHeap (2 ^ 36))).state
  let s2 := ((Call.malloc 200).run s1).state
  have hruns : ((Call.malloc 100).run (freshHeap (2 ^ 36))).value = some 81808 ∧
      ((Call.malloc 200).run s1).value = some 81584 ∧
      (∃ b ∈ s2.hist.live, 81808 = b.addr + headerSize) ∧
      ((Call.free 81808).run s2).value = some 0 ∧
      ((Call.free 81808).run s2).state.hist.live.length = 1 := by
    decide +kernel
  obtain ⟨hfirst, hsecond, hlive, hthird, hlen⟩ := hruns
  replace hfirst : (Call.malloc 100).run (freshHeap (2 ^ 36)) = .ok 81808 s1 := Outcome.eq_ok hfirst
  replace hsecond : (Call.malloc 200).run s1 = .ok 81584 s2 := Outcome.eq_ok hsecond
  clear_value s2 s1
  have hcalls : Seq.Calls Call.run (fun s call => call.Allowed s) (freshHeap (2 ^ 36)) s1 :=
    .step .start (i := Call.malloc 100) ⟨by decide, by decide⟩ hfirst
  replace hcalls := hcalls.step (i := Call.malloc 200) ⟨by decide, by decide⟩ hsecond
  replace hcalls := hcalls.step (i := Call.free 81808) hlive (Outcome.eq_ok hthird)
  exact ⟨_, hcalls, hlen, allocator_correct (freshHeap_start (by decide) (by decide)) le_rfl hcalls⟩

/-- The largest number of units that a correct program may ask for. -/
def chunk : ℕ := 2 ^ 27 - 1

/-- Where the blocks of this size lie. -/
def chunkAt (i : ℕ) : ℕ := 16384 + i * (headerSize * chunk)

/-- Of `k` such blocks the first `j` have been freed. -/
structure Row (s : State) (j k : ℕ) : Prop where
  /-- The address of `base`. -/
  base : s.base = 4096
  /-- The break. -/
  brk : s.brk = chunkAt k
  /-- The kernel grants the whole address space. -/
  limit : s.limit = trapframeVa
  /-- It never refuses. -/
  refuse : s.refuse = fun _ => false
  /-- The free blocks have been joined, and their sizes added in 32 bits. -/
  ring : j = 0 ∧ s.freep = 4096 ∧ s.hdr 4096 = ⟨4096, 0⟩ ∨
    0 < j ∧ (s.freep = 4096 ∨ s.freep = chunkAt 0) ∧ s.hdr 4096 = ⟨chunkAt 0, 0⟩ ∧
      s.hdr (chunkAt 0) = ⟨4096, j * chunk % 2 ^ 32⟩
  /-- The headers of the others hold their sizes. -/
  size : ∀ i, j ≤ i → i < k → (s.hdr (chunkAt i)).size = chunk
  /-- The others are in use. -/
  live : ∀ b, b ∈ s.hist.live ↔ ∃ i, j ≤ i ∧ i < k ∧ b = ⟨chunkAt i, chunk⟩
  /-- All have been obtained from the kernel. -/
  got : ∀ i < k, (chunkAt i, headerSize * chunk) ∈ s.hist.got

theorem chunkAt_succ (i : ℕ) : chunkAt i + headerSize * chunk = chunkAt (i + 1) := by
  unfold chunkAt
  rw [Nat.succ_mul, Nat.add_assoc]

theorem chunkAt_le {i j : ℕ} (h : i ≤ j) : chunkAt i ≤ chunkAt j :=
  Nat.add_le_add_left (Nat.mul_le_mul_right _ h) _

theorem chunkAt_lt {i j : ℕ} (h : i < j) : chunkAt i < chunkAt j := by
  have hle : chunkAt (i + 1) ≤ chunkAt j := chunkAt_le h
  have hsucc := chunkAt_succ i
  unfold headerSize chunk at hsucc
  omega

theorem lt_chunkAt (i : ℕ) : 4096 < chunkAt i := by
  unfold chunkAt
  omega

/-- One more block is allocated. -/
theorem Row.malloc {k : ℕ} (h : Row s 0 k) (hk : k < 33) :
    ∃ r s', (Call.malloc (2 ^ 31 - 32)).run s = .ok r s' ∧ Row s' 0 (k + 1) := by
  obtain ⟨-, hfreep, hbase⟩ | ⟨hpos, -⟩ := h.ring
  · have hlimit : chunkAt k + headerSize * chunk ≤ trapframeVa := by
      rw [chunkAt_succ]
      exact (chunkAt_le hk).trans (by decide)
    have hrun : Heap.malloc (2 ^ 31 - 32) s = .ok (s.brk + headerSize) { granted s chunk with
        hdr := update (update s.hdr s.brk ⟨s.base, chunk⟩) s.base
          ⟨s.base, 0⟩ } := by
      apply malloc_alone
      · exact hfreep.trans h.base.symm
      · rw [h.base]
        exact hbase
      · decide
      · decide
      · decide
      · rw [h.base]
        decide
      · rw [h.base, h.brk]
        exact lt_chunkAt k
      · rw [h.refuse]
      · rw [h.brk, h.limit]
        exact hlimit
      · rw [h.limit]
        decide
    have hwanted : wanted chunk = chunk := by decide
    have hunits : units (2 ^ 31 - 32) = chunk := by decide
    refine ⟨_, _, Call.run_malloc hrun, ?_⟩
    constructor
    · exact h.base
    · change s.brk + headerSize * wanted chunk = chunkAt (k + 1)
      rw [h.brk, hwanted, chunkAt_succ]
    · exact h.limit
    · exact h.refuse
    · left
      refine ⟨rfl, hfreep, ?_⟩
      change update (update s.hdr s.brk _) s.base _ 4096 = _
      rw [h.base, update_self]
    · intro i _ hi
      change (update (update s.hdr s.brk _) s.base _ (chunkAt i)).size = chunk
      rw [h.base, update_of_ne (lt_chunkAt i).ne', h.brk]
      by_cases heq : i = k
      · rw [heq, update_self]
      · have hlt : i < k := by omega
        rw [update_of_ne (chunkAt_lt hlt).ne]
        exact h.size i (Nat.zero_le i) hlt
    · intro b
      change b ∈ ⟨s.brk, units (2 ^ 31 - 32)⟩ :: s.hist.live ↔ _
      rw [List.mem_cons, h.live, h.brk, hunits]
      constructor
      · rintro (rfl | ⟨i, hi, hik, rfl⟩)
        · exact ⟨k, Nat.zero_le k, Nat.lt_succ_self k, rfl⟩
        · exact ⟨i, hi, Nat.lt_succ_of_lt hik, rfl⟩
      · rintro ⟨i, hi, hik, rfl⟩
        rcases Nat.lt_succ_iff_lt_or_eq.mp hik with hlt | rfl
        · exact .inr ⟨i, hi, hlt, rfl⟩
        · exact .inl rfl
    · intro i hi
      change _ ∈ (s.brk, headerSize * wanted chunk) :: s.hist.got
      rw [hwanted, h.brk]
      rcases Nat.lt_succ_iff_lt_or_eq.mp hi with hlt | rfl
      · exact List.mem_cons_of_mem _ (h.got i hlt)
      · exact List.mem_cons_self
  · exact absurd hpos (Nat.lt_irrefl 0)

/-- The state after the block at `a` has been freed, in which two headers and `freep` differ. -/
theorem Row.of_free {j k : ℕ} {hdr : ℕ → Header} {freep : ℕ} (h : Row s j k) (hj : j < k)
    (hfreep : freep = 4096 ∨ freep = chunkAt 0) (hbase : hdr 4096 = ⟨chunkAt 0, 0⟩)
    (hlow : hdr (chunkAt 0) = ⟨4096, (j + 1) * chunk % 2 ^ 32⟩)
    (hhdr : ∀ i, j < i → hdr (chunkAt i) = s.hdr (chunkAt i)) :
    Row (givenBack { s with hdr := hdr, freep := freep } (chunkAt j)) (j + 1) k := by
  constructor
  · exact h.base
  · exact h.brk
  · exact h.limit
  · exact h.refuse
  · exact .inr ⟨Nat.succ_pos j, hfreep, hbase, hlow⟩
  · intro i hi hik
    change (hdr (chunkAt i)).size = chunk
    rw [hhdr i hi]
    exact h.size i (by omega) hik
  · intro b
    change b ∈ s.hist.live.filter _ ↔ _
    rw [List.mem_filter, h.live, decide_eq_true_eq]
    constructor
    · rintro ⟨⟨i, hi, hik, rfl⟩, hne⟩
      refine ⟨i, ?_, hik, rfl⟩
      rcases Nat.lt_or_ge j i with hlt | hge
      · exact hlt
      · obtain rfl : i = j := by omega
        exact absurd rfl hne
    · rintro ⟨i, hi, hik, rfl⟩
      exact ⟨⟨i, by omega, hik, rfl⟩, (chunkAt_lt hi).ne'⟩
  · exact h.got

/-- One more block is freed. -/
theorem Row.free {j : ℕ} (h : Row s j 33) (hj : j < 33) :
    ∃ r s', (Call.free (chunkAt j + headerSize)).run s = .ok r s' ∧ Row s' (j + 1) 33 := by
  have hbrk : chunkAt j + headerSize * chunk ≤ s.brk := by
    rw [chunkAt_succ, h.brk]
    exact chunkAt_le hj
  have hmax : s.brk ≤ maxva := by
    rw [h.brk]
    decide
  have hsize := h.size j le_rfl hj
  have hbaselt := lt_chunkAt j
  have hlater : ∀ i, j < i → chunkAt i ≠ chunkAt j ∧ chunkAt i ≠ 4096 ∧ chunkAt i ≠ chunkAt 0 := by
    intro i hi
    exact ⟨(chunkAt_lt hi).ne', (lt_chunkAt i).ne', (chunkAt_lt (Nat.zero_lt_of_lt hi)).ne'⟩
  rcases h.ring with ⟨rfl, hfreep, hbase⟩ | ⟨hpos, hfreep, hbase, hlow⟩
  · have hrun := free_alone (hfreep.trans h.base.symm) (by rw [h.base]; exact hbase) hsize
      (by rw [h.base]; exact hbaselt) (by decide) hbrk hmax
    refine ⟨_, _, Call.run_free hrun, ?_⟩
    apply h.of_free hj (.inl hfreep)
    · rw [h.base, update_self]
    · rw [h.base, update_of_ne hbaselt.ne', update_self]
      rfl
    · intro i hi
      obtain ⟨hne, hne', -⟩ := hlater i hi
      rw [h.base, update_of_ne hne', update_of_ne hne]
  · have hnowrap : j * chunk % 2 ^ 32 = j * chunk := by
      unfold chunk
      omega
    have hadjacent : chunkAt 0 + headerSize * (j * chunk) = chunkAt j := by
      unfold chunkAt headerSize chunk
      omega
    rw [hnowrap] at hlow
    have hfreep' : s.freep = s.base ∨ s.freep = chunkAt 0 := h.base ▸ hfreep
    have hrun := free_above hfreep' (by rw [h.base]; exact hbase) (by rw [h.base]; exact hlow) hsize
      (by rw [h.base]; exact lt_chunkAt 0) (Nat.mul_pos hpos (by decide)) hadjacent (by decide) hbrk
      hmax
    refine ⟨_, _, Call.run_free hrun, ?_⟩
    apply h.of_free hj (.inr rfl)
    · rw [update_of_ne (lt_chunkAt 0).ne, update_of_ne hbaselt.ne, hbase]
    · rw [update_self, h.base, Nat.succ_mul]
    · intro i hi
      obtain ⟨hne, -, hne'⟩ := hlater i hi
      rw [update_of_ne hne', update_of_ne hne]

/-- The heap of a program whose ring has been used. -/
def usedHeap (limit : ℕ) : State :=
  { freshHeap limit with hdr := update (freshHeap limit).hdr 4096 ⟨4096, 0⟩, freep := 4096 }

theorem usedHeap_row : Row (usedHeap trapframeVa) 0 0 := by
  constructor
  · rfl
  · decide
  · rfl
  · rfl
  · left
    refine ⟨rfl, rfl, ?_⟩
    simp [usedHeap]
  · intro i _ hi
    exact absurd hi (Nat.not_lt_zero i)
  · intro b
    constructor
    · intro hb
      cases hb
    · rintro ⟨i, -, hi, -⟩
      exact absurd hi (Nat.not_lt_zero i)
  · intro i hi
    exact absurd hi (Nat.not_lt_zero i)

/-- The first call makes the ring. -/
theorem malloc_freshHeap (nbytes : ℕ) :
    (Call.malloc nbytes).run (freshHeap trapframeVa) =
      (Call.malloc nbytes).run (usedHeap trapframeVa) := by
  have hinit : initRing (freshHeap trapframeVa) = .ok () (usedHeap trapframeVa) :=
    initRing_unused rfl (by decide) (by decide)
  have hinit' : initRing (usedHeap trapframeVa) = .ok () (usedHeap trapframeVa) :=
    initRing_used (by decide)
  have hrun : Heap.malloc nbytes (freshHeap trapframeVa) =
      Heap.malloc nbytes (usedHeap trapframeVa) := by
    unfold Heap.malloc
    rw [bind_apply, bind_apply, hinit, hinit']
  change (Heap.malloc nbytes >>= _ : HeapM ℕ) _ = (Heap.malloc nbytes >>= _ : HeapM ℕ) _
  rw [bind_apply, bind_apply, hrun]

/-- Blocks are allocated. -/
theorem exists_filled (k : ℕ) (hk : k < 33) :
    ∃ s, Seq.Calls Call.run (fun s call => call.Allowed s) (freshHeap trapframeVa) s ∧
      Row s 0 (k + 1) := by
  have hallowed : ∀ s, (Call.malloc (2 ^ 31 - 32)).Allowed s := fun s => ⟨by decide, by decide⟩
  induction k with
  | zero =>
    obtain ⟨r, s, hrun, hrow⟩ := usedHeap_row.malloc hk
    rw [← malloc_freshHeap] at hrun
    exact ⟨s, Seq.Calls.start.step (hallowed _) hrun, hrow⟩
  | succ k ih =>
    obtain ⟨s, hcalls, hrow⟩ := ih (by omega)
    obtain ⟨r, s', hrun, hrow'⟩ := hrow.malloc hk
    exact ⟨s', hcalls.step (hallowed _) hrun, hrow'⟩

/-- All blocks are allocated, and `j` are freed. -/
theorem exists_freed (j : ℕ) (hj : j ≤ 33) :
    ∃ s, Seq.Calls Call.run (fun s call => call.Allowed s) (freshHeap trapframeVa) s ∧
      Row s j 33 := by
  induction j with
  | zero => exact exists_filled 32 (by decide)
  | succ j ih =>
    obtain ⟨s, hcalls, hrow⟩ := ih (by omega)
    obtain ⟨r, s', hrun, hrow'⟩ := hrow.free hj
    refine ⟨s', hcalls.step ?_ hrun, hrow'⟩
    exact ⟨⟨chunkAt j, chunk⟩, (hrow.live _).mpr ⟨j, le_rfl, hj, rfl⟩, rfl⟩

/-- Once more than 2 ^ 32 units are free in one block its size has wrapped around, and most of
the memory is lost. -/
theorem sizes_wrap : ∃ start s, Start start ∧
    Seq.Calls Call.run (fun s call => call.Allowed s) start s ∧ ¬ ∃ fs, Correct s fs := by
  obtain ⟨s, hcalls, h⟩ := exists_freed 33 le_rfl
  refine ⟨freshHeap trapframeVa, s, freshHeap_start (by decide) le_rfl, hcalls, ?_⟩
  rintro ⟨fs, hc⟩
  obtain ⟨hj, -⟩ | ⟨-, hfreep, hbase, hlow⟩ := h.ring
  · cases hj
  have hnext : next s 4096 = chunkAt 0 := congrArg Header.ptr hbase
  have hnext' : next s (chunkAt 0) = 4096 := congrArg Header.ptr hlow
  have hleads := hc.circular (by
    have := lt_chunkAt 0
    omega)
  have hinc := hc.increasing
  rw [h.base] at hleads hinc
  have hlow' := lt_chunkAt 0
  -- The links lead from `base` to the one free block and back.
  cases fs with
  | nil =>
    have heq : next s 4096 = 4096 := hleads
    omega
  | cons b fs =>
    obtain ⟨hb, hleads⟩ := hleads
    rw [hnext] at hb
    rw [← hb] at hleads
    cases fs with
    | cons c fs =>
      have heq : next s (chunkAt 0) = c.addr := hleads.1
      have hlt := (List.pairwise_cons.mp hinc).1 c.addr
        (List.mem_cons_of_mem _ List.mem_cons_self)
      omega
    | nil =>
      have hsize := hc.size b List.mem_cons_self
      rw [← hb, hlow] at hsize
      have hgot : Obtained s (chunkAt 32) :=
        ⟨_, h.got 32 (by decide), le_rfl, by unfold headerSize chunk; omega⟩
      rcases (hc.cover _).mpr hgot with ⟨d, hd, -, hlt⟩ | ⟨d, hd, -⟩
      · rw [List.mem_singleton.mp hd, Block.stop, ← hb, ← hsize] at hlt
        exact absurd hlt (by decide)
      · obtain ⟨i, hi, hi', -⟩ := (h.live d).mp hd
        omega

/-! ## Requests wrap around -/

/-- `m` takes back nothing of what the kernel was asked for. -/
def Records {α : Type} (m : HeapM α) : Prop :=
  ∀ l s, l <:+ s.hist.requests → After m s fun _ s' => l <:+ s'.hist.requests

section Records

variable {α β : Type} {m : HeapM α} {g : α → HeapM β}

theorem Records.bind (hm : Records m) (hg : ∀ a, Records (g a)) : Records (m >>= g) :=
  fun l s h => (hm l s h).bind fun a s' h' => hg a l s' h'

theorem Records.pure (a : α) : Records (Pure.pure a : HeapM α) := fun _ _ h => After.pure h

theorem Records.gets (f : State → α) : Records (Seq.gets f) :=
  fun _ _ h => .of_eq rfl h

theorem Records.setFreep (f : State → ℕ) : Records (Seq.modify fun s => { s with freep := f s }) :=
  fun _ _ h => .of_eq rfl h

/-- Reading a header. -/
theorem header_records (a : ℕ) : Records (header a) := by
  intro l s h r s' hrun
  unfold header at hrun
  split at hrun <;> cases hrun
  exact h

/-- Storing into a header. -/
theorem setHeader_records (a : ℕ) (f : Header → Header) : Records (setHeader a f) := by
  intro l s h r s' hrun
  unfold setHeader at hrun
  split at hrun <;> cases hrun
  exact h

/-- The loop of `free`, by induction on its rounds. -/
theorem place_records (bp fuel p : ℕ) : Records (place bp fuel p) := by
  induction fuel generalizing p with
  | zero => exact fun _ _ _ _ _ h => by cases h
  | succ fuel ih =>
    refine (header_records p).bind fun h => ?_
    split
    · exact .pure p
    · split
      · exact .pure p
      · exact ih _

/-- `free` asks for no memory. -/
theorem free_records (ap : ℕ) : Records (free ap) := by
  refine (Records.gets id).bind fun s => (place_records _ _ _).bind fun p => Records.bind ?_
    fun _ => Records.bind ?_ fun _ => .setFreep _
  · refine (header_records p).bind fun h => (header_records _).bind fun b => ?_
    split
    · exact (header_records _).bind fun q => (setHeader_records _ _).bind fun _ =>
        setHeader_records _ _
    · exact setHeader_records _ _
  · refine (header_records p).bind fun h => ?_
    split
    · exact (header_records _).bind fun b => (setHeader_records _ _).bind fun _ =>
        setHeader_records _ _
    · exact setHeader_records _ _

/-- `morecore` adds one request, for the bytes of its units as an `int`. -/
theorem morecore_after {l : List (ℕ × ℤ)} {nu : ℕ} {s : State}
    (h : l <:+ (wanted nu, toInt (wanted nu * headerSize)) :: s.hist.requests) :
    After (morecore nu) s fun _ s' => l <:+ s'.hist.requests := by
  refine .bind (Q := fun _ s' => l <:+ s'.hist.requests) (.of_eq rfl h)
    fun o s' h => ?_
  cases o with
  | none => exact .pure h
  | some p =>
    exact ((setHeader_records p _).bind fun _ => (free_records _).bind fun _ => .gets _) l s' h

/-- The loop of `malloc`, by induction on its rounds. -/
theorem mallocLoop_records (n fuel prevp p : ℕ) : Records (mallocLoop n fuel prevp p) := by
  induction fuel generalizing prevp p with
  | zero => exact fun _ _ _ _ _ h => by cases h
  | succ fuel ih =>
    refine (header_records p).bind fun h => ?_
    split
    · refine (header_records p).bind fun h => ?_
      split
      · exact (setHeader_records _ _).bind fun _ => (Records.setFreep _).bind fun _ => .pure _
      · exact (setHeader_records _ _).bind fun _ => (setHeader_records _ _).bind fun _ =>
          (Records.setFreep _).bind fun _ => .pure _
    · refine (Records.gets _).bind fun freep => ?_
      split
      · refine Records.bind (fun _ _ h => morecore_after (h.trans (List.suffix_cons _ _)))
          fun p => ?_
        split
        · exact .pure 0
        · exact (header_records p).bind fun h => ih _ _
      · exact ih _ _

end Records

/-- Asked for 2 ^ 27 units or more, `morecore` asks the kernel for something else. -/
theorem extend_asks {n fuel : ℕ} (hn : 2 ^ 27 ≤ n) (s : State) :
    After (extend n fuel) s fun _ s' =>
      (n, toInt (n * headerSize)) :: s.hist.requests <:+ s'.hist.requests := by
  have hwanted : wanted n = n := if_neg (by omega)
  have hmore : After (morecore n) s fun _ s' =>
      (n, toInt (n * headerSize)) :: s.hist.requests <:+ s'.hist.requests :=
    morecore_after (by rw [hwanted])
  refine hmore.bind fun p s' h => ?_
  split
  · exact .pure h
  · exact ((header_records p).bind fun q => mallocLoop_records n fuel p q.ptr) _ s' h

/-- `malloc` of `nbytes` bytes leaves the break where it was and returns null, or it returns a
pointer to that many bytes below the break. It asks the kernel for what it needs, and never
gives memory back. -/
def WithinBreak (nbytes : ℕ) (s : State) : Prop :=
  ∃ r s', malloc nbytes s = .ok r s' ∧ Asks s s' ∧
    (r = 0 ∧ s'.brk = s.brk ∨
      r ≠ 0 ∧ r + nbytes ≤ s'.brk ∧
        headerSize + nbytes ≤ headerSize * (s'.hdr (r - headerSize)).size)

/-- A block handed out is large enough. -/
theorem Sound.handed {q nbytes : ℕ} {fs : List Block}
    (h : Sound (handedOut s q (units nbytes) nbytes) fs) :
    q + headerSize ≠ 0 ∧ q + headerSize + nbytes ≤ s.brk ∧
      headerSize + nbytes ≤ headerSize * (s.hdr (q + headerSize - headerSize)).size := by
  have hmem : (⟨q, units nbytes⟩ : Block) ∈ (handedOut s q (units nbytes) nbytes).hist.live :=
    List.mem_cons_self
  have hroom : q + headerSize + update s.hist.asked q nbytes q ≤
      q + headerSize * units nbytes := h.room _ hmem
  have hbelow : q + headerSize * units nbytes ≤ s.brk := h.below _ hmem
  have hsize : (s.hdr q).size = units nbytes := h.size _ hmem
  rw [update_self] at hroom
  refine ⟨Nat.succ_ne_zero (q + 15), hroom.trans hbelow, ?_⟩
  rw [Nat.add_sub_cancel, hsize]
  omega

/-- `malloc` does what it should exactly for up to 2 ^ 31 - 32 bytes and where a free block is
large enough. Otherwise `morecore` needs 2 ^ 31 bytes or more, which are not an `int`. -/
theorem malloc_within_break (h : Inv s) {nbytes : ℕ} (hn : nbytes < 2 ^ 32) :
    WithinBreak nbytes s ↔
      nbytes ≤ 2 ^ 31 - 32 ∨ ∃ fs b, Sound s fs ∧ b ∈ fs ∧ units nbytes ≤ b.size := by
  obtain ⟨hpos, hroom⟩ := units_room hn
  constructor
  · rintro ⟨r, s', hrun, ⟨-, rs, hrs, hexact⟩, -⟩
    by_contra hnot
    obtain ⟨hlarge, hfs⟩ := not_or.mp hnot
    have hunits : 2 ^ 27 ≤ units nbytes := by
      unfold units headerSize
      omega
    obtain ⟨s0, fs, hinit, hsound, hstate, hsame⟩ := h.initRing_runs
    rw [malloc_eq hinit hsound, hsound.ring.rounds_eq hsound.bounds] at hrun
    rcases mallocLoop_runs hsound.ring hsound.bounds hsound.freep hpos
      (rounds s0 - (fs.length + 1)) with ⟨s1, fs1, q, -, ht⟩ | ⟨-, heq⟩
    · -- The block was part of a free block, which is then large enough.
      obtain ⟨c, hc, j, rfl, hstop⟩ := ht.inside
      refine hfs ⟨fs, c, hsame (List.ne_nil_of_mem hc) ▸ hsound, hc, ?_⟩
      unfold Block.stop headerSize at hstop
      omega
    · rw [heq] at hrun
      obtain ⟨l, hl⟩ := extend_asks hunits s0 r s' hrun
      rw [show s0.hist = s.hist by rw [hstate], hrs, List.append_cons] at hl
      have hmem : (units nbytes, toInt (units nbytes * headerSize)) ∈ rs := by
        rw [← List.append_cancel_right hl]
        exact List.mem_append_right _ (List.mem_singleton.mpr rfl)
      have hint := hexact _ hmem
      unfold toInt headerSize at hint
      omega
  · rintro (hsmall | ⟨fs, b, hsound, hb, hfits⟩)
    · have hunits : units nbytes < 2 ^ 27 := by
        unfold units headerSize
        omega
      obtain ⟨r, s', hrun, hasks, hcases⟩ := h.malloc_runs hn hunits
      refine ⟨r, s', hrun, hasks, ?_⟩
      rcases hcases with ⟨hr, hbrk, -⟩ | ⟨q, fs, rfl, hsound⟩
      · exact .inl ⟨hr, hbrk⟩
      · exact .inr hsound.handed
    · have hrun : malloc nbytes s = _ := malloc_eq hsound.initRing_eq hsound
      rw [hsound.ring.rounds_eq hsound.bounds] at hrun
      rcases mallocLoop_runs hsound.ring hsound.bounds hsound.freep hpos
        (rounds s - (fs.length + 1)) with ⟨s', fs', q, heq, ht⟩ | ⟨hsmall, -⟩
      · refine ⟨_, s', hrun.trans heq, ⟨?_, [], ?_, List.forall_mem_nil _⟩,
          .inr (hsound.take ht hroom).handed⟩
        · rw [ht.state]
        · rw [ht.state]
          rfl
      · have := hsmall b hb
        omega

/-- A program gets a hundred bytes. -/
theorem malloc_hundred : ∃ r s', malloc 100 (freshHeap (2 ^ 36)) = .ok r s' ∧
    r + 100 ≤ s'.brk ∧ s'.hist.requests = [(4096, 65536)] := by
  have hvalue : (malloc 100 (freshHeap (2 ^ 36))).value = some 81808 ∧
      (malloc 100 (freshHeap (2 ^ 36))).state.hist.requests = [(4096, 65536)] := by
    decide +kernel
  obtain ⟨r, s', hrun, -, hcases⟩ :=
    (malloc_within_break freshHeap_inv (by decide : 100 < 2 ^ 32)).mpr (.inl (by decide))
  rw [hrun] at hvalue
  obtain ⟨hr, hrequests⟩ := hvalue
  rcases hcases with ⟨rfl, -⟩ | ⟨-, hle, -⟩
  · cases hr
  · exact ⟨r, s', hrun, hle, hrequests⟩

/-- For 2 ^ 32 - 1 bytes `malloc` needs 2 ^ 28 + 1 units; `morecore` passes their size to `sbrk`
as an `int`, which is 16, and the pointer returned is the new break. -/
theorem malloc_too_small :
    Inv (freshHeap (2 ^ 36)) ∧ ∃ s', malloc (2 ^ 32 - 1) (freshHeap (2 ^ 36)) = .ok 16400 s' ∧
      s'.brk = 16400 ∧ s'.hist.requests = [(2 ^ 28 + 1, 16)] := by
  have hvalue : (malloc (2 ^ 32 - 1) (freshHeap (2 ^ 36))).value = some 16400 ∧
      (malloc (2 ^ 32 - 1) (freshHeap (2 ^ 36))).state.brk = 16400 ∧
      (malloc (2 ^ 32 - 1) (freshHeap (2 ^ 36))).state.hist.requests = [(2 ^ 28 + 1, 16)] := by
    decide +kernel
  exact ⟨freshHeap_inv, _, Outcome.eq_ok hvalue.1, hvalue.2⟩

end RiscvKernel.Heap
