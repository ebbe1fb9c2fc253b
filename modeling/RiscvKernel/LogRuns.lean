import RiscvKernel.BioAlone
import RiscvKernel.Log

/-!
# The block writes of commit and recovery

Run alone, `commit` and `recover_from_log` issue a list of block writes that can be
written down: the log blocks, the header, the home blocks, the cleared header. This
file proves these lists from the programs of `log.c` over the buffer cache.
-/

namespace RiscvKernel

open Threads Function

/-! ## The header block -/

/-- Storing entries leaves the numbers before them alone. -/
theorem num_putEntries_before (ns : List ℕ) (b : Block) (i : ℕ) {off w : ℕ}
    (hoff : off + w ≤ 4 + 4 * i) (hsize : 4 + 4 * (i + ns.length) ≤ bsize) :
    (b.putEntries i ns).num off w = b.num off w := by
  induction ns generalizing b i with
  | nil => rfl
  | cons n ns ih =>
    simp only [List.length_cons] at hsize
    rw [Block.putEntries, ih _ (i + 1) (by omega) (by omega),
      Block.num_put_disjoint b n (by omega) (by omega)]

/-- Entry `j` of the stored header. -/
theorem num_putEntries (ns : List ℕ) (b : Block) (i : ℕ) {j : ℕ} (hj : j < ns.length)
    (hsize : 4 + 4 * (i + ns.length) ≤ bsize) (hns : ∀ n ∈ ns, n < 2 ^ 32) :
    (b.putEntries i ns).num (4 + 4 * (i + j)) 4 = ns[j] := by
  induction ns generalizing b i j with
  | nil => simp at hj
  | cons n ns ih =>
    simp only [List.length_cons] at hsize hj
    rw [Block.putEntries]
    cases j with
    | zero =>
      rw [num_putEntries_before ns _ (i + 1) (by omega) (by omega)]
      rw [Nat.add_zero, Block.num_put_same b n (by omega)]
      exact Nat.mod_eq_of_lt (hns n (by simp))
    | succ j =>
      have h := ih (b.put (4 + 4 * i) 4 n) (i + 1) (j := j) (by omega) (by omega)
        (fun m hm => hns m (by simp [hm]))
      have hidx : i + 1 + j = i + (j + 1) := by omega
      rw [hidx] at h
      simpa using h

/-- The count in a header just stored. -/
theorem headCount_encodeHead (b : Block) {lh : List ℕ} (hlen : lh.length ≤ logblocks) :
    (b.encodeHead lh).headCount = lh.length := by
  have hlog : logblocks = 30 := rfl
  have hsize : bsize = 1024 := rfl
  have hnum : (b.encodeHead lh).num 0 4 = lh.length := by
    unfold Block.encodeHead
    rw [num_putEntries_before lh _ 0 (by omega) (by omega), Block.num_put_same b _ (by omega)]
    exact Nat.mod_eq_of_lt (by omega)
  unfold Block.headCount
  rw [hnum, if_pos (by omega)]

/-- `read_head` reads what `write_head` stored. -/
theorem decodeHead_encodeHead (b : Block) {lh : List ℕ} (hlen : lh.length ≤ logblocks)
    (hlh : ∀ n ∈ lh, n < 2 ^ 32) : (b.encodeHead lh).decodeHead = lh := by
  have hlog : logblocks = 30 := rfl
  have hsize : bsize = 1024 := rfl
  unfold Block.decodeHead
  rw [headCount_encodeHead b hlen]
  apply List.ext_getElem
  · simp
  · intro j hj hj'
    simp only [List.getElem_map, List.getElem_range]
    have h := num_putEntries lh (b.put 0 4 lh.length) 0 hj' (by omega) hlh
    simpa [Block.encodeHead] using h

/-- A header with count zero lists nothing. -/
theorem decodeHead_eq_nil {b : Block} (h : b.headCount = 0) : b.decodeHead = [] := by
  simp [Block.decodeHead, h]

/-! ## The lists of writes -/

/-- The log blocks that `write_log` writes from entry `tail` on. -/
def logEntries (start : ℕ) (V : ℕ → Block) : ℕ → List ℕ → List (ℕ × Block)
  | _, [] => []
  | tail, b :: bs => (start + tail + 1, V b) :: logEntries start V (tail + 1) bs

/-- The home blocks that `install_trans` writes from entry `tail` on. -/
def homeEntries (start : ℕ) (V : ℕ → Block) : ℕ → List ℕ → List (ℕ × Block)
  | _, [] => []
  | tail, b :: bs => (b, V (start + tail + 1)) :: homeEntries start V (tail + 1) bs

/-- Block `b` belongs to the on-disk log: the header or one of its data blocks. -/
def InLog (start b : ℕ) : Prop := start ≤ b ∧ b ≤ start + logblocks

/-- The entries are blocks of the log. -/
theorem mem_logEntries_fst {start : ℕ} {V : ℕ → Block} {bs : List ℕ} {tail a : ℕ}
    (ha : a ∈ (logEntries start V tail bs).map Prod.fst) :
    start + tail + 1 ≤ a ∧ a < start + tail + 1 + bs.length := by
  induction bs generalizing tail with
  | nil => simp [logEntries] at ha
  | cons b bs ih =>
    simp only [logEntries, List.map_cons, List.mem_cons] at ha
    simp only [List.length_cons]
    rcases ha with rfl | ha
    · omega
    · have := ih ha
      omega

@[simp] theorem homeEntries_fst (start : ℕ) (V : ℕ → Block) (tail : ℕ) (bs : List ℕ) :
    (homeEntries start V tail bs).map Prod.fst = bs := by
  induction bs generalizing tail with
  | nil => rfl
  | cons b bs ih => simp [homeEntries, ih]

/-- The log entries depend only on the listed blocks. -/
theorem logEntries_congr {start : ℕ} {V V' : ℕ → Block} {bs : List ℕ} (tail : ℕ)
    (h : ∀ b ∈ bs, V b = V' b) : logEntries start V tail bs = logEntries start V' tail bs := by
  induction bs generalizing tail with
  | nil => rfl
  | cons b bs ih =>
    simp only [logEntries]
    rw [h b (by simp), ih (tail + 1) fun b' hb' => h b' (by simp [hb'])]

/-- The home entries depend only on the log blocks. -/
theorem homeEntries_congr {start : ℕ} {V V' : ℕ → Block} {bs : List ℕ} (tail : ℕ)
    (h : ∀ k < bs.length, V (start + (tail + k) + 1) = V' (start + (tail + k) + 1)) :
    homeEntries start V tail bs = homeEntries start V' tail bs := by
  induction bs generalizing tail with
  | nil => rfl
  | cons b bs ih =>
    simp only [homeEntries]
    have h0 := h 0 (by simp)
    simp only [Nat.add_zero] at h0
    rw [h0, ih (tail + 1) fun k hk => ?_]
    have hk' := h (k + 1) (by simpa using hk)
    have hidx : tail + (k + 1) = tail + 1 + k := by omega
    rwa [hidx] at hk'

section Runs

variable {P : Type} [DecidableEq P] {early : Prop} {p : P} {lg : Log} {V : ℕ → Block}
  {D : Set ℕ} {s : Store P}

omit [DecidableEq P] in
/-- Reading `log` at the start of a function. -/
theorem readLog_issues {H : List BufId} (h : Alone early p lg H V D s) {g : Log → BioProg P Unit}
    {W : List (ℕ × Block)} {Q : Unit → Store P → Prop} (hg : Issues early p (g lg) s W Q) :
    Issues early p (Prog.read Store.log >>= g) s W Q := by
  refine (Issues.update (Q := fun log s' => log = lg ∧ s' = s) rfl ⟨h.log_eq, rfl⟩).bind_nil ?_
  rintro _ _ ⟨rfl, rfl⟩
  exact hg

/-- One iteration of `write_log`. -/
theorem writeLog_step (h : Alone early p lg [] V D s) {a b : ℕ} (hab : a ≠ b) (ha : a ∉ D)
    (hb : b ∈ lg.lh) (hroom : early ∨ b ∈ D ∧ Room [] D) {g : BioProg P Unit}
    {W : List (ℕ × Block)} {Q : Unit → Store P → Prop}
    (hg : ∀ s', Alone early p lg [] (update V a (V b)) D s' → Issues early p g s' W Q) :
    Issues early p (do
      let dst ← bread lg.dev a
      let src ← bread lg.dev b
      copyData dst src
      bwrite dst
      brelse src
      brelse dst
      g) s ((a, V b) :: W) Q := by
  refine (bread_issues h (by simp) (fun hD => absurd hD ha)
    (hroom.imp_right fun hr => .inr hr.2)).bind_nil ?_
  rintro dst s1 ⟨h1, -, hcd, hvd, -⟩
  have hfree : ∀ i ∈ [dst], ¬ (s1.bufs i).caches lg.dev b := by
    intro i hi hc
    rw [List.mem_singleton.mp hi] at hc
    exact hab ((caches_iff.mp hcd).2.symm.trans (caches_iff.mp hc).2)
  refine (bread_issues h1 hfree (fun _ => hb)
    (hroom.imp_right fun hr => .inl hr.1)).bind_nil ?_
  rintro src s2 ⟨h2, hne, hcs, hvs, hkeep⟩
  have hdata : (s2.bufs src).data = V b := h2.cached src b hcs hvs
  have hcd2 : (s2.bufs dst).caches lg.dev a := by rw [hkeep dst (by simp)]; exact hcd
  unfold copyData
  refine store_issues h2 (i := dst) (by simp) hcd2 (by rw [hdata]) fun s3 h3 _ _ => ?_
  refine (brelse_issues h3 (i := src) (K := [dst]) (by simp) ?_).bind_nil ?_
  · intro j
    simp only [List.mem_singleton] at hne ⊢
    simp only [List.mem_cons, List.not_mem_nil, or_false]
    constructor
    · rintro rfl
      exact ⟨.inr rfl, fun heq => hne heq.symm⟩
    · rintro ⟨rfl | rfl, hj⟩
      · exact absurd rfl hj
      · rfl
  rintro _ s4 ⟨h4, -⟩
  refine (brelse_issues h4 (i := dst) (K := []) (by simp) (by simp)).bind_nil ?_
  rintro _ s5 ⟨h5, -⟩
  exact hg s5 h5

/-- One iteration of `install_trans`. Outside recovery the block is unpinned. -/
theorem install_step {recovering : Bool} (h : Alone early p lg [] V D s) {a b : ℕ} (hab : a ≠ b)
    (ha : a ∉ D) (hb : b ∈ lg.lh) (hpin : recovering = false → b ∈ D)
    (hroom : early ∨ Room [] D ∧ ∀ i, b ∈ D ∨ Room [i] D) {g : BioProg P Unit}
    {W : List (ℕ × Block)} {Q : Unit → Store P → Prop}
    (hg : ∀ s', Alone early p lg [] (update V b (V a))
      (if recovering then D else D \ {b}) s' → Issues early p g s' W Q) :
    Issues early p (do
      let lbuf ← bread lg.dev a
      let dbuf ← bread lg.dev b
      copyData dbuf lbuf
      bwrite dbuf
      if !recovering then bunpin dbuf
      brelse lbuf
      brelse dbuf
      g) s ((b, V a) :: W) Q := by
  refine (bread_issues h (by simp) (fun hD => absurd hD ha)
    (hroom.imp_right fun hr => .inr hr.1)).bind_nil ?_
  rintro lbuf s1 ⟨h1, -, hcl, hvl, -⟩
  have hfree : ∀ i ∈ [lbuf], ¬ (s1.bufs i).caches lg.dev b := by
    intro i hi hc
    rw [List.mem_singleton.mp hi] at hc
    exact hab ((caches_iff.mp hcl).2.symm.trans (caches_iff.mp hc).2)
  refine (bread_issues h1 hfree (fun _ => hb)
    (hroom.imp_right fun hr => hr.2 lbuf)).bind_nil ?_
  rintro dbuf s2 ⟨h2, hne, hcd, hvd, hkeep⟩
  have hne' : dbuf ≠ lbuf := by simpa using hne
  have hdata : (s2.bufs lbuf).data = V a := by
    rw [hkeep lbuf (by simp)]
    exact h1.cached lbuf a hcl hvl
  unfold copyData
  refine store_issues h2 (i := dbuf) (by simp) hcd (by rw [hdata]) fun s3 h3 hdisk hsame => ?_
  have hcd3 : (s3.bufs dbuf).caches lg.dev b := by
    obtain ⟨hdev, hblock, -⟩ := hsame dbuf (by simp)
    rw [caches_iff, hdev, hblock]
    exact caches_iff.mp hcd
  -- Both releases are the same in recovery and in a commit.
  have hrelease : ∀ (D' : Set ℕ) (s4 : Store P),
      Alone early p lg [dbuf, lbuf] (update V b (V a)) D' s4 →
      (∀ s', Alone early p lg [] (update V b (V a)) D' s' → Issues early p g s' W Q) →
      Issues early p (brelse lbuf >>= fun _ => brelse dbuf >>= fun _ => g) s4 W Q := by
    intro D' s4 h4 hg'
    refine (brelse_issues h4 (i := lbuf) (K := [dbuf]) (by simp) ?_).bind_nil ?_
    · intro j
      simp only [List.mem_cons, List.not_mem_nil, or_false]
      constructor
      · rintro rfl
        exact ⟨.inl rfl, hne'⟩
      · rintro ⟨rfl | rfl, hj⟩
        · rfl
        · exact absurd rfl hj
    rintro _ s5 ⟨h5, -⟩
    refine (brelse_issues h5 (i := dbuf) (K := []) (by simp) (by simp)).bind_nil ?_
    rintro _ s6 ⟨h6, -⟩
    exact hg' s6 h6
  cases recovering with
  | true =>
    simp only [Bool.not_true, Bool.false_eq_true, if_false]
    exact hrelease D s3 h3 hg
  | false =>
    simp only [Bool.not_false, if_true]
    refine (bunpin_issues h3 (i := dbuf) (by simp) hcd3 (hpin rfl) ?_).bind_nil ?_
    · rw [hdisk, update_self]
    rintro _ s4 ⟨h4, -⟩
    exact hrelease (D \ {b}) s4 h4 hg

/-- `write_log` writes the log blocks. -/
theorem writeLogFrom_issues {bs : List ℕ} (h : Alone early p lg [] V D s)
    (hbs : ∀ b ∈ bs, b ∈ lg.lh ∧ ¬ InLog lg.start b) (tail : ℕ)
    (hlen : tail + bs.length ≤ logblocks) (hD : ∀ k ≤ tail + bs.length, lg.start + k ∉ D)
    (hroom : early ∨ (∀ b ∈ bs, b ∈ D) ∧ Room [] D) :
    Issues early p (writeLogFrom lg.dev lg.start tail bs) s (logEntries lg.start V tail bs)
      fun _ s' => Alone early p lg [] (applyWrites V (logEntries lg.start V tail bs)) D s' := by
  induction bs generalizing V s tail with
  | nil => exact Issues.ret h
  | cons b bs ih =>
    simp only [List.length_cons] at hlen hD
    have hlog : InLog lg.start (lg.start + tail + 1) := ⟨by omega, by omega⟩
    have hne : ∀ b' ∈ b :: bs, b' ≠ lg.start + tail + 1 := by
      rintro b' hb' rfl
      exact (hbs _ hb').2 hlog
    have hcongr : logEntries lg.start (update V (lg.start + tail + 1) (V b)) (tail + 1) bs =
        logEntries lg.start V (tail + 1) bs :=
      logEntries_congr _ fun b' hb' => update_of_ne (hne b' (by simp [hb'])) _ _
    rw [logEntries, writeLogFrom]
    refine writeLog_step h (hne b (by simp)).symm (hD (tail + 1) (by omega)) (hbs b (by simp)).1
      (hroom.imp_right fun hr => ⟨hr.1 b (by simp), hr.2⟩) fun s' h' => ?_
    have hnext := ih h' (fun b' hb' => hbs b' (by simp [hb'])) (tail + 1) (by omega)
      (fun k hk => hD k (by omega))
        (hroom.imp_right fun hr => ⟨fun b' hb' => hr.1 b' (by simp [hb']), hr.2⟩)
    rwa [hcongr] at hnext

/-- `install_trans` writes the home blocks. -/
theorem installFrom_issues (recovering : Bool) {bs : List ℕ}
    (h : Alone early p lg [] V D s) (hbs : ∀ b ∈ bs, b ∈ lg.lh ∧ ¬ InLog lg.start b) (tail : ℕ)
    (hlen : tail + bs.length ≤ logblocks) (hD : ∀ k ≤ tail + bs.length, lg.start + k ∉ D)
    (hpin : recovering = false → bs.Nodup ∧ ∀ b ∈ bs, b ∈ D)
    (hroom : early ∨ Room [] D ∧ (recovering = true → ∀ i, Room [i] D)) :
    Issues early p (installFrom recovering lg.dev lg.start tail bs) s
      (homeEntries lg.start V tail bs) fun _ s' =>
        Alone early p lg [] (applyWrites V (homeEntries lg.start V tail bs))
          (if recovering then D else D \ {b | b ∈ bs}) s' := by
  induction bs generalizing V D s tail with
  | nil =>
    refine Issues.ret ?_
    cases recovering <;> simpa [homeEntries] using h
  | cons b bs ih =>
    simp only [List.length_cons] at hlen hD
    obtain ⟨hlh, hb⟩ := hbs b (by simp)
    have hab : lg.start + tail + 1 ≠ b := by
      rintro rfl
      exact hb ⟨by omega, by omega⟩
    have hcongr : homeEntries lg.start (update V b (V (lg.start + tail + 1))) (tail + 1) bs =
        homeEntries lg.start V (tail + 1) bs := by
      refine homeEntries_congr _ fun k hk => update_of_ne ?_ _ _
      rintro rfl
      exact hb ⟨by omega, by omega⟩
    rw [homeEntries, installFrom]
    have hstep : early ∨ Room [] D ∧ ∀ i, b ∈ D ∨ Room [i] D := by
      refine hroom.imp_right fun hr => ⟨hr.1, fun i => ?_⟩
      cases recovering with
      | true => exact .inr (hr.2 rfl i)
      | false => exact .inl ((hpin rfl).2 b (by simp))
    refine install_step h hab (hD (tail + 1) (by omega)) hlh (fun hr => (hpin hr).2 b (by simp))
      hstep fun s' h' => ?_
    have hpin' : recovering = false →
        bs.Nodup ∧ ∀ b' ∈ bs, b' ∈ (if recovering then D else D \ {b}) := by
      intro hr
      obtain ⟨hnodup, hmem⟩ := hpin hr
      rw [List.nodup_cons] at hnodup
      refine ⟨hnodup.2, fun b' hb' => ?_⟩
      simp only [hr, Bool.false_eq_true, if_false, Set.mem_sdiff, Set.mem_singleton_iff]
      refine ⟨hmem b' (by simp [hb']), ?_⟩
      rintro rfl
      exact hnodup.1 hb'
    have hsub : ∀ x ∈ (if recovering then D else D \ {b}), x ∈ D := by
      intro x hx
      split at hx
      · exact hx
      · exact hx.1
    have hroom' : early ∨ Room [] (if recovering then D else D \ {b}) ∧
        (recovering = true → ∀ i, Room [i] (if recovering then D else D \ {b})) :=
      hroom.imp_right fun hr => ⟨hr.1.mono hsub, fun hrec i => (hr.2 hrec i).mono hsub⟩
    have hnext := ih h' (fun b' hb' => hbs b' (by simp [hb'])) (tail + 1) (by omega)
      (fun k hk hx => hD k (by omega) (hsub _ hx)) hpin' hroom'
    rw [hcongr] at hnext
    refine hnext.imp fun _ s'' h'' => ?_
    cases recovering with
    | true => exact h''
    | false =>
      have hset : (D \ {b}) \ {x | x ∈ bs} = D \ {x | x ∈ b :: bs} := by
        ext x
        simp [and_assoc]
      simp only [Bool.false_eq_true, if_false] at h'' ⊢
      rwa [hset] at h''

/-- `write_head` writes the header block. -/
theorem writeHead_issues (h : Alone early p lg [] V D s) (hD : lg.start ∉ D)
    (hroom : early ∨ Room [] D) :
    Issues early p writeHead s [(lg.start, (V lg.start).encodeHead lg.lh)] fun _ s' =>
      Alone early p lg [] (update V lg.start ((V lg.start).encodeHead lg.lh)) D s' := by
  unfold writeHead
  refine readLog_issues h ?_
  refine (bread_issues h (by simp) (fun hmem => absurd hmem hD)
    (hroom.imp_right .inr)).bind_nil ?_
  rintro buf s1 ⟨h1, -, hc, hv, -⟩
  unfold modify
  refine store_issues h1 (i := buf) (by simp) hc
    (by rw [h1.cached buf _ hc hv]) fun s2 h2 _ _ => ?_
  exact (brelse_issues h2 (i := buf) (K := []) (by simp) (by simp)).imp fun _ _ h' => h'.1

omit [DecidableEq P] in
/-- Only the log is replaced; the device stays and no kept block is listed. -/
theorem Alone.withLog {g : Log} {H : List BufId} {t : Store P} (h : Alone early p lg H V D s)
    (hdev : g.dev = lg.dev) (hlh : ∀ b ∈ D, b ∈ g.lh → b ∈ lg.lh) (hlog : t.log = g)
    (hbufs : t.bufs = s.bufs) (hlru : t.lru = s.lru) (hdisk : t.disk = s.disk) :
    Alone early p g H V D t := by
  obtain ⟨-, hmem, huniq, hlock, hunlocked, href, hcached, hdisk', hpinned⟩ := h
  rw [← hdev] at huniq hlock hunlocked href hcached hpinned
  refine ⟨hlog, ?_, ?_, ?_, ?_, ?_, ?_, ?_, ?_⟩
  all_goals first | rw [hbufs] | rw [hlru] | rw [hdisk]
  case refine_4 =>
    refine fun i hi => (hunlocked i hi).imp_right ?_
    rintro ⟨b, hb, hnot, hc⟩
    exact ⟨b, hb, fun hlisted => hnot (hlh b hb hlisted), hc⟩
  all_goals assumption

/-- The block writes of `commit`, in order. -/
def commitWrites (lg : Log) (V : ℕ → Block) : List (ℕ × Block) :=
  logEntries lg.start V 0 lg.lh ++
    ((lg.start, (V lg.start).encodeHead lg.lh) ::
      (lg.lh.map (fun b => (b, V b)) ++
        [(lg.start, ((V lg.start).encodeHead lg.lh).encodeHead [])]))

/-- The block writes of `recover_from_log` started on disk `d`. -/
def recoverWrites (start : ℕ) (d : ℕ → Block) : List (ℕ × Block) :=
  homeEntries start d 0 (d start).decodeHead ++ [(start, (d start).encodeHead [])]

/-- A log block holds the contents of the home block it was written for. -/
theorem applyWrites_logEntries (start : ℕ) (V d : ℕ → Block) (bs : List ℕ) (tail : ℕ) {k : ℕ}
    (hk : k < bs.length) :
    applyWrites d (logEntries start V tail bs) (start + (tail + k) + 1) = V bs[k] := by
  induction bs generalizing tail k d with
  | nil => simp at hk
  | cons b bs ih =>
    rw [logEntries, applyWrites_cons]
    cases k with
    | zero =>
      have hnot : start + (tail + 0) + 1 ∉ (logEntries start V (tail + 1) bs).map Prod.fst := by
        intro hmem
        have := mem_logEntries_fst hmem
        omega
      rw [applyWrites_of_notMem hnot]
      simp
    | succ k =>
      have h := ih (update d (start + tail + 1) (V b)) (tail + 1) (k := k)
        (by simpa using hk)
      have hidx : tail + 1 + k = tail + (k + 1) := by omega
      rw [hidx] at h
      simpa using h

/-- The home entries once the log blocks hold the new contents. -/
theorem homeEntries_eq_map {start : ℕ} {V V' : ℕ → Block} {bs : List ℕ} (tail : ℕ)
    (h : ∀ k (hk : k < bs.length), V' (start + (tail + k) + 1) = V bs[k]) :
    homeEntries start V' tail bs = bs.map fun b => (b, V b) := by
  induction bs generalizing tail with
  | nil => rfl
  | cons b bs ih =>
    have h0 := h 0 (by simp)
    simp only [Nat.add_zero, List.getElem_cons_zero] at h0
    rw [homeEntries, h0, List.map_cons, ih (tail + 1) fun k hk => ?_]
    have hk' := h (k + 1) (by simpa using hk)
    have hidx : tail + (k + 1) = tail + 1 + k := by omega
    rw [hidx] at hk'
    simpa using hk'

/-- `commit` issues the writes of `commitWrites`. With a buffer to spare it completes, and
then no listed block is pinned any more. -/
theorem commit_issues (h : Alone early p lg [] V D s) (hsub : ∀ b ∈ lg.lh, b ∈ D)
    (hbs : ∀ b ∈ lg.lh, ¬ InLog lg.start b) (hnodup : lg.lh.Nodup)
    (hroom : lg.lh ≠ [] → lg.lh.length ≤ logblocks ∧ (early ∨ Room [] D) ∧
      ∀ k ≤ lg.lh.length, lg.start + k ∉ D) :
    Issues early p commit s (if lg.lh = [] then [] else commitWrites lg V) fun _ s' =>
      ∃ V', Alone early p { lg with lh := [] } [] V' (D \ {b | b ∈ lg.lh}) s' := by
  unfold commit
  refine readLog_issues h ?_
  by_cases hne : lg.lh = []
  · have hlg : { lg with lh := [] } = lg := by rw [← hne]
    have hnone : D \ {b | b ∈ lg.lh} = D := by simp [hne]
    rw [if_pos hne, if_neg (by simp [hne]), hlg, hnone]
    exact Issues.ret ⟨V, h⟩
  rw [if_neg hne, if_pos (List.length_pos_iff.mpr hne)]
  obtain ⟨hlen, hroom, hD⟩ := hroom hne
  have hlisted : ∀ b ∈ lg.lh, b ∈ lg.lh ∧ ¬ InLog lg.start b := fun b hb => ⟨hb, hbs b hb⟩
  have hD' : ∀ k ≤ 0 + lg.lh.length, lg.start + k ∉ D := by simpa using hD
  have hstart : lg.start ∉ (logEntries lg.start V 0 lg.lh).map Prod.fst := by
    intro hmem
    have := mem_logEntries_fst hmem
    omega
  unfold commitWrites
  refine Issues.bind (m := writeLog) (readLog_issues h (writeLogFrom_issues h hlisted 0
    (by omega) hD' (hroom.imp_right fun hr => ⟨hsub, hr⟩))) ?_
  intro _ s1 h1
  have hV1 : applyWrites V (logEntries lg.start V 0 lg.lh) lg.start = V lg.start :=
    applyWrites_of_notMem hstart
  have hhead := writeHead_issues h1 (hD 0 (by omega)) hroom
  rw [hV1] at hhead
  refine Issues.bind (W := [_]) hhead ?_
  intro _ s2 h2
  have hhome : homeEntries lg.start (update (applyWrites V (logEntries lg.start V 0 lg.lh))
      lg.start ((V lg.start).encodeHead lg.lh)) 0 lg.lh = lg.lh.map fun b => (b, V b) := by
    refine homeEntries_eq_map 0 fun k hk => ?_
    rw [update_of_ne (by omega), applyWrites_logEntries lg.start V V lg.lh 0 hk]
  have hinst := installFrom_issues false h2 hlisted 0 (by omega) hD'
    (fun _ => ⟨hnodup, hsub⟩) (hroom.imp_right fun hr => ⟨hr, nofun⟩)
  rw [hhome] at hinst
  refine Issues.bind (m := installTrans false) (readLog_issues h2 hinst) ?_
  intro _ s3 h3
  simp only [Bool.false_eq_true, if_false] at h3
  refine (Issues.update (Q := fun _ s' => s' = s3.clearHead) rfl rfl).bind_nil ?_
  rintro _ _ rfl
  have h4 := h3.withLog (g := { lg with lh := [] }) (t := s3.clearHead) rfl
    (fun _ _ hb => absurd hb List.not_mem_nil) (by rw [← h3.log_eq]; rfl) rfl rfl rfl
  have hclear := writeHead_issues h4 (fun hx => hD 0 (by omega) hx.1)
    (hroom.imp_right fun hr => hr.mono fun _ hx => hx.1)
  have hV3 : applyWrites (update (applyWrites V (logEntries lg.start V 0 lg.lh))
      lg.start ((V lg.start).encodeHead lg.lh)) (lg.lh.map fun b => (b, V b)) lg.start =
      (V lg.start).encodeHead lg.lh := by
    rw [applyWrites_of_notMem, update_self]
    intro hmem
    simp only [List.map_map, List.mem_map, Function.comp_apply, exists_eq_right] at hmem
    exact hbs _ hmem ⟨by omega, by omega⟩
  simp only at hclear
  rw [hV3] at hclear
  exact hclear.imp fun _ _ h' => ⟨_, h'⟩

/-- The part of `recover_from_log` after `read_head`. -/
theorem restore_issues {d : ℕ → Block} (h : Alone early p lg [] d ∅ s)
    (hbs : ∀ b ∈ lg.lh, ¬ InLog lg.start b) (hlen : lg.lh.length ≤ logblocks) :
    Issues early p (do
      installTrans true
      Prog.update fun _ s => ((), s.setHead [])
      writeHead) s
      (homeEntries lg.start d 0 lg.lh ++ [(lg.start, (d lg.start).encodeHead [])]) fun _ s' =>
        s'.disk = applyWrites d
          (homeEntries lg.start d 0 lg.lh ++ [(lg.start, (d lg.start).encodeHead [])]) := by
  have hinst := installFrom_issues true h (fun b hb => ⟨hb, hbs b hb⟩) 0 (by simpa using hlen)
    (fun _ _ => Set.notMem_empty _) (fun hf => by cases hf)
      (.inr ⟨Room.empty, fun _ i => Room.single i⟩)
  refine Issues.bind (m := installTrans true) (readLog_issues h hinst) ?_
  intro _ s2 h2
  simp only [if_true] at h2
  refine (Issues.update (Q := fun _ s' => s' = s2.setHead []) rfl rfl).bind_nil ?_
  rintro _ _ rfl
  have h3 := h2.withLog (g := { lg with lh := [] }) (t := s2.setHead []) rfl
    (fun _ hb => absurd hb (Set.notMem_empty _)) (by rw [setHead_log, h2.log_eq]) rfl rfl rfl
  have hclear := writeHead_issues h3 (Set.notMem_empty _) (.inr Room.empty)
  have hstart : applyWrites d (homeEntries lg.start d 0 lg.lh) lg.start = d lg.start := by
    apply applyWrites_of_notMem
    rw [homeEntries_fst]
    exact fun hmem => hbs _ hmem ⟨by omega, by omega⟩
  simp only [hstart] at hclear
  refine hclear.imp fun _ s' h' => ?_
  rw [applyWrites_append]
  funext b
  exact h'.disk b (by simp)

/-- `read_head` loads the on-disk header. -/
theorem readHead_issues {d : ℕ → Block} (h : Alone early p lg [] d ∅ s) :
    Issues early p readHead s [] fun _ s' => ∃ lg', lg'.start = lg.start ∧
      lg'.lh = (d lg.start).decodeHead ∧ Alone early p lg' [] d ∅ s' := by
  have hroom : early ∨ Room [] ∅ := .inr Room.empty
  unfold readHead
  refine readLog_issues h ?_
  refine (bread_issues h (by simp) (fun hb => absurd hb (Set.notMem_empty _))
    (hroom.imp_right .inr)).bind_nil ?_
  rintro buf s1 ⟨h1, -, hc, hv, -⟩
  have hdata := h1.cached buf _ hc hv
  generalize hlh : (d lg.start).decodeHead = lh
  refine (Issues.update (Q := fun _ s' => s' = s1.setHead lh) (setHead_writes _ _) ?_).bind_nil ?_
  · rw [hdata, hlh]
  rintro _ _ rfl
  have h2 := h1.withLog (g := { lg with lh := lh }) (t := s1.setHead lh) rfl
    (fun _ hb => absurd hb (Set.notMem_empty _)) (by rw [setHead_log, h1.log_eq]) rfl rfl rfl
  refine (brelse_issues h2 (i := buf) (K := []) (by simp) (by simp)).imp fun _ s' h' => ?_
  exact ⟨{ lg with lh := lh }, rfl, rfl, h'.1⟩

/-- `recover_from_log` issues the writes of `recoverWrites`. -/
theorem recover_issues {d : ℕ → Block} (h : Alone early p lg [] d ∅ s)
    (hbs : ∀ b ∈ (d lg.start).decodeHead, ¬ InLog lg.start b)
    (hlen : (d lg.start).decodeHead.length ≤ logblocks) :
    Issues early p recoverFromLog s (recoverWrites lg.start d) fun _ s' =>
      s'.disk = applyWrites d (recoverWrites lg.start d) := by
  refine (readHead_issues h).bind_nil ?_
  rintro _ s1 ⟨lg', hstart, hlh, h1⟩
  rw [← hlh, ← hstart] at hbs
  rw [← hlh] at hlen
  have hrest := restore_issues h1 hbs hlen
  rw [hstart, hlh] at hrest
  exact hrest

end Runs

end RiscvKernel
