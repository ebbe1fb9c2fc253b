import RiscvKernel.StoreSections
import RiscvKernel.LogCrash

/-!
# Group commit and coherence of the cache

Any number of processes run operations, read, change and release buffers and log them;
the last operation to end commits. Every program keeps the contract, so the invariant
of the cache and the log holds in every reachable configuration.
-/

namespace RiscvKernel

open Threads Function

variable {P : Type} [DecidableEq P] {dev : ℕ} {own : Bool} {p : P} {H : BufId → Option Handle}
  {v : Option CommitView} {o : Bool} {s : Store P} {i : BufId}

/-- What an idle process knows: every buffer it holds is valid, and it is not committing. -/
def Idle (dev : ℕ) (p : P) (s : Store P) : Prop :=
  ∃ H o, (∀ i h, H i = some h → h.valid = true) ∧ Knows dev p H none none o s

/-- No other process can make an idle process busy. -/
theorem idle_stable : (storeContract P dev own).Stable p (Idle dev p) := by
  rintro s s' ⟨H, o, hvalid, h⟩ hrely
  exact ⟨H, o, hvalid, knows_stable h hrely⟩

/-! ## Programs -/

/-- Reading the log during one's own `commit()`. -/
theorem safe_readLog {c : CommitView} (h : Knows dev p H none (some c) o s) :
    (storeContract P dev own).Safe p (Prog.read Store.log)
      (fun lg s' => (lg.dev = dev ∧ lg.start = c.start ∧ lg.lh = c.lh) ∧
        Knows dev p H none (some c) o s') s := by
  refine .update h knows_stable fun s' h' hinv => ⟨hinv, ?_, ?_, h'⟩
  · exact ⟨CacheGuar.of_eq rfl rfl rfl, GroupGuar.refl _ _ _ _⟩
  · exact ⟨hinv.dev_eq, h'.view.2.1, h'.view.2.2.1⟩

/-- None of the buffers held is for block `b`. -/
def Avoids (H : BufId → Option Handle) (b : ℕ) : Prop := ∀ i x, H i = some x → x.block ≠ b

/-- What is held beside one more buffer. -/
theorem Avoids.of_update {x : Option Handle} {b : ℕ} (hi : H i = none)
    (h : Avoids (update H i x) b) : Avoids H b := by
  intro j y hj
  have hji : j ≠ i := fun heq => by simp [heq, hi] at hj
  exact h j y (by rwa [update_of_ne hji])

/-- A process that comes to hold a buffer held none for that block. -/
theorem Knows.avoids {x : Handle} (hinv : StoreInv dev s) (hi : H i = none)
    (h : Knows dev p (update H i (some x)) none v o s) : Avoids H x.block := by
  intro j y hj hb
  have hji : j ≠ i := fun heq => by simp [heq, hi] at hj
  have hy := h.held j y (by rwa [update_of_ne hji])
  have hx := h.held i x (update_self _ _ _)
  exact hji (hinv.cache.uniq j i _ (hb ▸ hy.caches) hx.caches)

/-- `bread` gives a clean valid buffer for the block, of which none was held before. -/
theorem safe_bread {b : ℕ} (h : Knows dev p H none v o s) :
    (storeContract P dev own).Safe p (bread dev b)
      (fun i s' => H i = none ∧ Avoids H b ∧ ∃ f,
        Knows dev p (update H i (some ⟨b, true, true, f⟩)) none v o s') s := by
  rw [bread_eq]
  refine .bind (.step h knows_stable fun s' h' hinv =>
    bgetSection_good hinv h') fun i s1 h1 => ?_
  refine .bind (.step h1 knows_stable fun s' h' hinv =>
    acquire_good hinv h') ?_
  rintro - s2 ⟨hnone, x, h2⟩
  have hi : update H i (some ⟨b, x, true, false⟩) i = some ⟨b, x, true, false⟩ :=
    update_self _ _ _
  refine .bind (Q := fun valid s' => valid = x ∧ Avoids H b ∧
    Knows dev p (update H i (some ⟨b, x, true, false⟩)) none v o s') ?_ ?_
  · refine .update h2 knows_stable fun s' h' hinv =>
      ⟨hinv, ?_, ?_, h'.avoids hinv hnone, h'⟩
    · exact ⟨CacheGuar.of_eq rfl rfl rfl, GroupGuar.refl _ _ _ _⟩
    · exact (h'.held i _ hi).valid
  · rintro valid s3 ⟨rfl, havoids, h3⟩
    cases valid with
    | true =>
      simp only [Bool.not_true, Bool.false_eq_true, if_false, Prog.pure_eq]
      exact ⟨hnone, havoids, false, h3⟩
    | false =>
      simp only [Bool.not_false, if_true]
      refine .bind (Q := fun _ => Knows dev p
        (update H i (some ⟨b, true, true, true⟩)) none v o) ?_
        fun _ s4 h4 => ⟨hnone, havoids, true, h4⟩
      refine .update h3 knows_stable fun s' h' hinv => ?_
      obtain ⟨hinv', hguar, h4⟩ := fill_good hinv h' hi rfl
      rw [update_idem] at h4
      exact ⟨hinv', hguar, h4⟩

/-- Changing the data of a held buffer. -/
theorem safe_setData {x : Handle} {d : Store P → Block} (h : Knows dev p H none v o s)
    (hi : H i = some x) (hv : x.valid = true) :
    (storeContract P dev own).Safe p (Prog.update fun _ s => ((), s.setData i (d s)))
      (fun _ => Knows dev p (update H i (some ⟨x.block, true, false, false⟩)) none v o)
      s :=
  .update h knows_stable fun _ h' hinv => setData_good hinv h' hi hv

/-- `bwrite` by the holder. -/
theorem safe_bwrite {x : Handle} (h : Knows dev p H none v o s) (hi : H i = some x)
    (hv : x.valid = true) :
    (storeContract P dev own).Safe p (bwrite i)
      (fun _ => Knows dev p (update H i (some ⟨x.block, true, true, true⟩)) none
        (v.map (CommitView.wrote x.block)) o) s := by
  refine .step h knows_stable fun s' h' hinv => ?_
  rw [if_pos (h'.lock_eq hi)]
  exact fun _ => write_good hinv h' hi hv

/-- `brelse` by the holder of a clean buffer. -/
theorem safe_brelse {x : Handle} (h : Knows dev p H none v o s) (hi : H i = some x)
    (hc : x.clean = true) :
    (storeContract P dev own).Safe p (brelse i)
      (fun _ => Knows dev p (update H i none) none v o) s := by
  refine .bind (Q := fun _ => Knows dev p (update H i none)
    (some (i, x.block)) v o) ?_ fun _ s1 h1 => ?_
  · refine .step h knows_stable fun s' h' hinv => ?_
    rw [if_pos (h'.lock_eq hi)]
    exact fun _ => release_good hinv h' hi hc
  · exact .update h1 knows_stable fun s' h' hinv =>
      unref_good hinv h' (update_self _ _ _)

/-- `bunpin` during `install_trans`. -/
theorem safe_bunpin {x : Handle} {c : CommitView} {rest : List ℕ}
    (h : Knows dev p H none (some c) o s) (hi : H i = some x) (hv : x.valid = true)
    (hf : x.flushed = true) (hnext : c.lh.drop c.installed = x.block :: rest) :
    (storeContract P dev own).Safe p (bunpin i)
      (fun _ => Knows dev p H none (some { c with installed := c.installed + 1 }) o) s :=
  .update h knows_stable fun _ h' hinv => bunpin_good hinv h' hi hv hf hnext

/-! ## Commit -/

/-- Forget some of the blocks already written. -/
theorem Knows.forget {lh w w' : List ℕ} {start n : ℕ}
    (h : Knows dev p H none (some ⟨start, lh, n, w⟩) o s) (hw : ∀ b ∈ w', b ∈ w) :
    Knows dev p H none (some ⟨start, lh, n, w'⟩) o s := by
  obtain ⟨hc, hst, hlh, hn, hwritten⟩ := h.view
  exact h.withLog rfl rfl rfl h.op ⟨hc, hst, hlh, hn, fun b hb => hwritten b (hw b hb)⟩

/-- `write_head` during `commit()`. It does not return to a process that holds the header. -/
theorem safe_writeHead {c : CommitView} (h : Knows dev p H none (some c) o s) :
    (storeContract P dev own).Safe p writeHead
      (fun _ s' => Avoids H c.start ∧ Knows dev p H none (some c) o s') s := by
  refine .bind (safe_readLog h) ?_
  rintro lg s1 ⟨⟨hdev, hst, -⟩, h1⟩
  rw [hdev, hst]
  refine .bind (safe_bread h1) ?_
  rintro i s2 ⟨hnone, havoids, f, h2⟩
  refine .bind (safe_setData h2 (update_self _ _ _) rfl) fun _ s3 h3 => ?_
  refine .bind (safe_bwrite h3 (update_self _ _ _) rfl) fun _ s4 h4 => ?_
  refine (safe_brelse h4 (update_self _ _ _) rfl).imp fun _ s5 h5 => ?_
  simp only [update_idem] at h5
  rw [← hnone, update_eq_self] at h5
  exact ⟨havoids, h5.forget fun b hb => List.mem_cons_of_mem _ hb⟩

/-- Two buffers held at the same time are different. -/
theorem held_ne {j : BufId} {hd : Handle} (hj : update H i (some hd) j = none) : j ≠ i := by
  rintro rfl
  rw [update_self] at hj
  cases hj

/-- `write_log` keeps the transaction. It does not return to a process that holds one of the
blocks it reads or writes. -/
theorem safe_writeLogFrom {c : CommitView} (start : ℕ) (bs : List ℕ) (tail : ℕ)
    (h : Knows dev p H none (some c) o s) :
    (storeContract P dev own).Safe p (writeLogFrom dev start tail bs)
      (fun _ s' => (∀ b ∈ List.range' (start + tail + 1) bs.length ++ bs, Avoids H b) ∧
        Knows dev p H none (some c) o s') s := by
  induction bs generalizing tail s with
  | nil => exact ⟨fun b hb => absurd hb List.not_mem_nil, h⟩
  | cons b bs ih =>
    refine .bind (safe_bread h) ?_
    rintro dst s1 ⟨hdst, hfirst, f, h1⟩
    refine .bind (safe_bread h1) ?_
    rintro src s2 ⟨hsrc, hsecond, f', h2⟩
    have hne := held_ne hsrc
    rw [update_of_ne hne] at hsrc
    refine .bind (safe_setData (x := ⟨start + tail + 1, true, true, f⟩) h2
      (by simp [hne.symm]) rfl) fun _ s3 h3 => ?_
    refine .bind (safe_bwrite h3 (update_self _ _ _) rfl) fun _ s4 h4 => ?_
    refine .bind (safe_brelse (x := ⟨b, true, true, f'⟩) h4 (by simp [hne]) rfl)
      fun _ s5 h5 => ?_
    refine .bind (safe_brelse
      (x := ⟨start + tail + 1, true, true, true⟩) h5 (by simp [hne.symm]) rfl) fun _ s6 h6 => ?_
    have hH : ∀ x y z w : Option Handle, update (update (update
        (update (update (update H dst x) src y) dst z) dst w) src none)
        dst none = H := by
      intro x y z w
      funext k
      by_cases hk : k = dst
      · simp [hk, hdst]
      · by_cases hk' : k = src <;> simp [hk, hk', hne, hsrc]
    rw [hH] at h6
    refine (ih (tail + 1) (h6.forget fun b hb => List.mem_cons_of_mem _ hb)).imp ?_
    rintro - s' ⟨hrest, h'⟩
    refine ⟨fun b' hb' => ?_, h'⟩
    simp only [List.length_cons, List.range'_succ, List.cons_append, List.mem_cons,
      List.mem_append] at hb'
    rcases hb' with rfl | hb' | rfl | hb'
    · exact hfirst
    · exact hrest b' (List.mem_append_left _ hb')
    · exact hsecond.of_update hdst
    · exact hrest b' (List.mem_append_right _ hb')

/-- `install_trans` installs, writes and unpins every block of the transaction. -/
theorem safe_installFrom (start : ℕ) (lh bs : List ℕ) (tail : ℕ) (hbs : lh.drop tail = bs)
    (h : Knows dev p H none (some ⟨start, lh, tail, lh.take tail⟩) o s) :
    (storeContract P dev own).Safe p (installFrom false dev start tail bs)
      (fun _ s' => ∃ n, lh.length ≤ n ∧ 
        Knows dev p H none (some ⟨start, lh, n, lh⟩) o s') s := by
  induction bs generalizing tail s with
  | nil =>
    have hlen := List.drop_eq_nil_iff.mp hbs
    refine ⟨tail, hlen, ?_⟩
    rwa [List.take_of_length_le hlen] at h
  | cons b bs ih =>
    refine .bind (safe_bread h) ?_
    rintro lbuf s1 ⟨hl, -, f, h1⟩
    refine .bind (safe_bread h1) ?_
    rintro dbuf s2 ⟨hd, -, f', h2⟩
    have hne := held_ne hd
    rw [update_of_ne hne] at hd
    refine .bind (safe_setData (x := ⟨b, true, true, f'⟩) h2 (by simp) rfl)
      fun _ s3 h3 => ?_
    refine .bind (safe_bwrite h3 (update_self _ _ _) rfl) fun _ s4 h4 => ?_
    simp only [Bool.not_false, if_true]
    refine .bind (safe_bunpin h4 (update_self _ _ _) rfl rfl hbs)
      fun _ s5 h5 => ?_
    refine .bind (safe_brelse
      (x := ⟨start + tail + 1, true, true, f⟩) h5 (by simp [hne.symm]) rfl) fun _ s6 h6 => ?_
    refine .bind (safe_brelse (x := ⟨b, true, true, true⟩) h6
      (by simp [hne]) rfl) fun _ s7 h7 => ?_
    have hH : ∀ x y z w : Option Handle, update (update (update
        (update (update (update H lbuf x) dbuf y) dbuf z) dbuf w)
        lbuf none) dbuf none = H := by
      intro x y z w
      funext k
      by_cases hk : k = dbuf
      · simp [hk, hd]
      · by_cases hk' : k = lbuf <;> simp [hk, hk', hne.symm, hl]
    rw [hH] at h7
    have htake : lh.take (tail + 1) = lh.take tail ++ [b] := by
      rw [List.take_add, hbs]
      rfl
    refine ih (tail + 1) ?_ ?_
    · rw [← List.drop_drop, hbs]
      rfl
    · rw [htake]
      refine h7.forget fun b' hb' => ?_
      rcases List.mem_append.mp hb' with hb' | hb'
      · exact List.mem_cons_of_mem _ hb'
      · rw [List.mem_singleton.mp hb']
        exact List.mem_cons_self

/-- The blocks that `commit()` locks for a transaction that is not empty. -/
def commitBlocks (start : ℕ) (lh : List ℕ) : List ℕ :=
  start :: (List.range' (start + 1) lh.length ++ lh)

/-- `commit()` writes every block of the transaction and empties it, and its caller holds none
of the blocks that it locks. -/
theorem safe_commit {start : ℕ} {lh : List ℕ}
    (h : Knows dev p H none (some ⟨start, lh, 0, []⟩) o s) :
    (storeContract P dev own).Safe p commit
      (fun _ s' => (lh ≠ [] → ∀ b ∈ commitBlocks start lh, Avoids H b) ∧
        ∃ w, Knows dev p H none (some ⟨start, [], 0, w⟩) o s') s := by
  refine .bind (safe_readLog h) ?_
  rintro lg s1 ⟨⟨hdev, -, hlh⟩, h1⟩
  by_cases hlen : lg.lh.length > 0
  · rw [if_pos hlen]
    refine .bind (m := writeLog) (.bind (safe_readLog h1) ?_)
      (Q := fun _ s' => (∀ b ∈ List.range' (start + 1) lh.length ++ lh, Avoids H b) ∧
        Knows dev p H none (some ⟨start, lh, 0, []⟩) o s') ?_
    · rintro lg' s2 ⟨⟨hdev', hst', hlh'⟩, h2⟩
      rw [hdev', hst', hlh']
      exact safe_writeLogFrom start lh 0 h2
    rintro - s2 ⟨hblocks, h2⟩
    refine .bind (safe_writeHead h2) ?_
    rintro - s3 ⟨hhead, h3⟩
    refine .bind (m := installTrans false) (Q := fun _ s' => ∃ n, lh.length ≤ n ∧
      Knows dev p H none (some ⟨start, lh, n, lh⟩) o s') ?_ ?_
    · refine .bind (safe_readLog h3) ?_
      rintro lg' s4 ⟨⟨hdev', hst', hlh'⟩, h4⟩
      rw [hdev', hst', hlh']
      exact safe_installFrom _ lh lh 0 rfl h4
    rintro - s4 ⟨n, hn, h4⟩
    refine .bind (Q := fun _ => Knows dev p H none (some ⟨start, [], 0, lh⟩) o) ?_
      fun _ s5 h5 => ?_
    · exact .update h4 knows_stable fun s' h' hinv =>
        clearHead_good hinv h' hn fun b hb => hb
    · refine (safe_writeHead h5).imp fun _ s' h' => ⟨fun _ b hb => ?_, lh, h'.2⟩
      rcases List.mem_cons.mp hb with rfl | hb
      · exact hhead
      · exact hblocks b hb
  · rw [if_neg hlen]
    have hnil : lh = [] := by
      rw [← show lg.lh = lh from hlh]
      exact List.length_eq_zero_iff.mp (by omega)
    subst hnil
    exact ⟨fun hne => absurd rfl hne, [], h1⟩

/-- `end_op`. -/
theorem safe_endOp (h : Knows dev p H none none true s) :
    (storeContract P dev own).Safe p endOp (fun _ => Knows dev p H none none false) s := by
  refine .bind (.step h knows_stable fun s' h' hinv =>
    endOpSection_good hinv h') ?_
  rintro doCommit s1 h1
  cases doCommit with
  | false => exact h1
  | true =>
    simp only [if_true] at h1 ⊢
    refine .bind (safe_commit h1) ?_
    rintro - s2 ⟨-, w, h2⟩
    exact .step h2 knows_stable fun s' h' hinv _ =>
      finishCommit_good hinv h' rfl rfl

/-! ## The system -/

/-- The calls open to an idle process: `devs` are the devices in use, and with `own` set a
process calls `log_write` only between its own `begin_op` and `end_op`. A holder releases a
buffer only after it has written or logged what it changed. -/
inductive StoreCall (own : Bool) (devs : ℕ → Prop) (p : P) (s : Store P) : BioProg P Unit → Prop
  | beginOp : p ∉ s.oh.ops → StoreCall own devs p s beginOp
  | endOp : p ∈ s.oh.ops → StoreCall own devs p s endOp
  | bread {d b : ℕ} : devs d → StoreCall own devs p s (bread d b >>= fun _ => return ())
  | modify {i : BufId} (f : Block → Block) : (s.bufs i).lock = some p →
      StoreCall own devs p s (modify i f)
  | bwrite {i : BufId} : (s.bufs i).lock = some p → StoreCall own devs p s (bwrite i)
  | brelse {i : BufId} : (s.bufs i).lock = some p → s.ch.dirty i = false →
      StoreCall own devs p s (brelse i)
  | logWrite {i : BufId} : (s.bufs i).lock = some p → (own = true → p ∈ s.oh.ops) →
      StoreCall own devs p s (logWrite i)

/-- A quiet start on device `dev`: nothing is referenced, the valid buffers agree with the
disk, and no operation has run. Both a restart and a completed recovery are such. -/
structure QuietStart (dev : ℕ) (s : Store P) : Prop where
  /-- The log is on the device. -/
  dev_eq : s.log.dev = dev
  /-- No operation runs and none has logged a block. -/
  log_eq : s.log.outstanding = 0 ∧ s.log.committing = false ∧ s.log.lh = []
  /-- Every buffer is on the list. -/
  mem_lru : ∀ i, i ∈ s.lru
  /-- No buffer is referenced or locked. -/
  unused : ∀ i, (s.bufs i).refcnt = 0 ∧ (s.bufs i).lock = none
  /-- A block is cached at most once. -/
  uniq : ∀ i j b, (s.bufs i).caches dev b → (s.bufs j).caches dev b → i = j
  /-- Valid buffers hold blocks of the device as they are on disk. -/
  valid : ∀ i, (s.bufs i).valid → (s.bufs i).dev = dev ∧ (s.bufs i).data = s.disk (s.bufs i).blockno
  /-- The history of the cache is empty. -/
  ch_eq : s.ch = ⟨fun _ => [], fun _ => false, s.disk⟩
  /-- The history of the log is empty. -/
  oh_eq : s.oh = ⟨[], fun _ => [], [], none, 0, [], [], []⟩

omit [DecidableEq P] in
/-- A restart is a quiet start. -/
theorem boot_quietStart (hdev : dev ≠ 0) (start : ℕ) (d : ℕ → Block) :
    QuietStart dev (boot start dev d : Store P) := by
  refine ⟨rfl, ⟨rfl, rfl, rfl⟩, ?_, fun _ => ⟨rfl, rfl⟩, ?_, ?_, rfl, rfl⟩
  · exact fun i => List.mem_reverse.mpr (List.mem_finRange i)
  · intro i j b hc
    exact absurd (caches_iff.mp hc).1.symm hdev
  · intro i hv
    cases hv

omit [DecidableEq P] in
/-- A quiet start satisfies the invariant. -/
theorem QuietStart.inv (h : QuietStart dev s) : StoreInv dev s := by
  obtain ⟨hout, hcomm, hlh⟩ := h.log_eq
  refine ⟨h.dev_eq, ?_, ?_⟩
  · rw [hlh, h.ch_eq, List.drop_nil]
    refine ⟨h.mem_lru, ?_, h.uniq, ?_, ?_, ?_, fun i hv => (h.valid i hv).2, fun b => .inl rfl, ?_⟩
    · intro i hne
      refine ⟨?_, rfl⟩
      by_contra hv
      exact hne (h.valid i (by simpa using hv)).1
    · intro i
      simp [refsOf, (h.unused i).1]
    · intro i q hq
      rw [(h.unused i).2] at hq
      cases hq
    · intro b hb
      cases hb
    · intro i hd
      cases hd
  · rw [h.oh_eq]
    refine ⟨hout, List.nodup_nil, ?_, hcomm, fun hc => absurd rfl hc, fun _ => rfl, fun _ _ => hlh,
      ?_, ?_, ?_, ?_⟩
    · rw [hlh]
      exact List.nodup_nil
    all_goals
      intro x hx
      cases hx

/-- At a quiet start every process is idle. -/
theorem QuietStart.idle (h : QuietStart dev s) (p : P) : Idle dev p s := by
  refine ⟨fun _ => none, false, by simp, ?_, ?_, by simp, by simp, ?_, ?_⟩
  · intro i
    simp [h.ch_eq]
  · intro i
    simp [(h.unused i).2]
  · simp [h.oh_eq]
  · simp [CommitView.Describes, h.oh_eq]

/-- Every call keeps the contract. -/
theorem safe_call {m : BioProg P Unit} (h : Idle dev p s)
    (hcall : StoreCall own (· = dev) p s m) :
    (storeContract P dev own).Safe p m (fun _ => Idle dev p) s := by
  obtain ⟨H, o, hvalid, h⟩ := h
  have hheld : ∀ i, (s.bufs i).lock = some p → ∃ x, H i = some x ∧ x.valid = true := by
    intro i hl
    obtain ⟨x, hx⟩ := Option.isSome_iff_exists.mp ((h.lock i).mp hl)
    exact ⟨x, hx, hvalid i x hx⟩
  have hnext : ∀ {i : BufId} {x : Handle}, x.valid = true →
      ∀ j y, update H i (some x) j = some y → y.valid = true := by
    intro i x hx j y hy
    by_cases hj : j = i
    · subst hj
      rw [update_self] at hy
      cases hy
      exact hx
    · rw [update_of_ne hj] at hy
      exact hvalid j y hy
  cases hcall with
  | beginOp hop =>
    have ho : o = false := by
      cases o with
      | false => rfl
      | true => exact absurd (h.op.mpr rfl) hop
    subst ho
    refine .imp (Q := fun _ => Knows dev p H none none true) ?_
      fun _ s' h' => ⟨H, true, hvalid, h'⟩
    exact .step h knows_stable fun s' h' hinv => beginOp_good hinv h'
  | endOp hop =>
    have ho : o = true := h.op.mp hop
    subst ho
    exact (safe_endOp h).imp fun _ s' h' => ⟨H, false, hvalid, h'⟩
  | bread hd =>
    subst hd
    refine .bind (safe_bread h) ?_
    rintro i s' ⟨-, -, f, h'⟩
    exact ⟨_, o, hnext rfl, h'⟩
  | modify f hl =>
    obtain ⟨x, hx, hv⟩ := hheld _ hl
    exact (safe_setData h hx hv).imp fun _ s' h' => ⟨_, o, hnext rfl, h'⟩
  | bwrite hl =>
    obtain ⟨x, hx, hv⟩ := hheld _ hl
    exact (safe_bwrite h hx hv).imp fun _ s' h' => ⟨_, o, hnext rfl, h'⟩
  | @brelse i hl hclean =>
    obtain ⟨x, hx, hv⟩ := hheld _ hl
    -- The holder has nothing left to write: it may treat the buffer as clean.
    have h' : Knows dev p (update H i (some { x with clean := true })) none none o s := by
      refine h.touch rfl (update_eq_self i _).symm (update_eq_self i _).symm
        (fun _ _ => rfl) (fun _ _ _ _ => rfl) (by simp) ((h.count_eq hx).trans rfl)
        ⟨fun _ => rfl, fun _ => hl⟩ ?_ (by simp) rfl h.view
      rintro y ⟨rfl⟩
      obtain ⟨h1, h2, -, h4⟩ := h.held i x hx
      exact ⟨h1, h2, fun _ => hclean, h4⟩
    refine (safe_brelse h' (update_self _ _ _) rfl).imp fun _ s' h'' => ?_
    refine ⟨_, o, ?_, h''⟩
    intro j y hy
    by_cases hj : j = i
    · subst hj
      rw [update_self] at hy
      cases hy
    · rw [update_of_ne hj, update_of_ne hj] at hy
      exact hvalid j y hy
  | @logWrite i hl hown =>
    obtain ⟨x, hx, hv⟩ := hheld _ hl
    refine .imp (Q := fun _ => Knows dev p
      (update H i (some { x with clean := true })) none none o) ?_
      fun _ s' h' => ⟨_, o, hnext (x := { x with clean := true }) hv, h'⟩
    exact .step h knows_stable fun s' h' hinv =>
      logWrite_good hinv h' hx hv fun ho => h.op.mp (hown ho)

/-- The contract holds in every configuration that any number of processes can reach. -/
theorem store_holds {c : Config P (Store P) Chan}
    (hc : Reachable (StoreCall own (· = dev)) (QuietStart dev) c) :
    Contract.Holds (storeContract P dev own) (Idle dev) c :=
  Contract.holds_of_reachable (fun _ => idle_stable)
    (fun _ _ _ _ hidle hcall => safe_call hidle hcall)
    (fun _ hs => ⟨hs.inv, hs.idle⟩) hc

/-- **Group commit.** However the operations overlap: no operation runs during `commit()`, no
`log_write` completes during it, and its two panics cannot happen; the blocks an operation has
logged are listed until one `commit()` has written them all; no block is listed twice; and a
process sleeps on the log only while the log is busy, when somebody is left to wake it. -/
theorem group_commit {c : Config P (Store P) Chan}
    (hc : Reachable (StoreCall true (· = dev)) (QuietStart dev) c) :
    (c.st.log.committing = true → c.st.log.outstanding = 0) ∧
    (∀ b ∈ c.st.oh.logWrites, b = false) ∧
    (∀ p, ¬ Panics c p "log.committing" ∧ ¬ Panics c p "log_write outside of trans") ∧
    (∀ p ∈ c.st.oh.ops, ∀ b ∈ c.st.oh.opBlocks p, b ∈ c.st.log.lh) ∧
    (∀ e ∈ c.st.oh.ended, ∀ b ∈ e.2, b ∈ c.st.log.lh ∨
      c.st.log.committing = true ∧ b ∈ c.st.oh.written) ∧
    (∀ r ∈ c.st.oh.commits, ∀ e ∈ r.ops, ∀ b ∈ e.2, b ∈ r.written) ∧
    c.st.log.lh.Nodup ∧
    ∀ p, (c.thread p).asleep = some .log →
      (c.st.log.committing = true ∨
        (c.st.log.lh.length : ℤ) + (c.st.log.outstanding + 1) * maxopblocks > logblocks) ∧
      (c.st.log.outstanding > 0 ∨ c.st.log.committing = true) := by
  have hholds := store_holds hc
  have hgroup := hholds.inv.group
  refine ⟨?_, hgroup.logWrites, ?_, hgroup.running, ?_, hgroup.commits, hgroup.lh_nodup, ?_⟩
  · intro hcomm
    rw [hgroup.committing, Option.isSome_iff_ne_none] at hcomm
    rw [hgroup.outstanding, hgroup.quiet hcomm]
    rfl
  · intro p
    constructor
    all_goals
      intro hpanic
      have := hholds.mayPanic hpanic
      simp [storeContract] at this
  · intro e he b hb
    refine (hgroup.ended e he b hb).imp_right (And.imp_left fun hc => ?_)
    rw [hgroup.committing, Option.isSome_iff_ne_none]
    exact hc
  · intro p hp
    have hbusy : LogBusy c.st.log := hholds.wait p .log hp
    refine ⟨hbusy, ?_⟩
    rcases hbusy with hcomm | hfull
    · exact .inr hcomm
    · by_cases hout : c.st.log.outstanding > 0
      · exact .inl hout
      · cases hcomm : c.st.log.committing with
        | true => exact .inr rfl
        | false =>
          -- With nothing running and nothing committing the log is empty, and has room.
          have hnone : c.st.oh.committer = none := by
            rw [hgroup.committing] at hcomm
            simpa using hcomm
          have hlen := hgroup.outstanding
          have hnil : c.st.oh.ops = [] := List.length_eq_zero_iff.mp (by omega)
          rw [hlen, hgroup.empty hnone hnil, hnil] at hfull
          simp [maxopblocks, logblocks] at hfull

/-- **Coherence of the cache.** With one device in use, however its users overlap: a block is
cached at most once; the reference count of a buffer is the number of its users, plus one while
its block is logged and not yet installed; a valid buffer that is neither locked nor listed
agrees with the disk. A logged block stays in the cache until it is installed, and what `bread`
has given to a process is the data most recently stored for the block. -/
theorem cache_coherent {c : Config P (Store P) Chan}
    (hc : Reachable (StoreCall false (· = dev)) (QuietStart dev) c) :
    (∀ i j b, (c.st.bufs i).caches dev b → (c.st.bufs j).caches dev b → i = j) ∧
    (∀ i, (c.st.bufs i).refcnt = (c.st.ch.users i).length +
      (if (c.st.bufs i).dev = dev ∧ (c.st.bufs i).blockno ∈ c.st.log.lh.drop c.st.oh.installed
        then 1 else 0) ∧ 0 ≤ (c.st.bufs i).refcnt) ∧
    (∀ i, (c.st.bufs i).valid → (c.st.bufs i).lock = none →
      (c.st.bufs i).blockno ∉ c.st.log.lh →
      (c.st.bufs i).data = c.st.disk (c.st.bufs i).blockno) ∧
    (∀ b ∈ c.st.log.lh.drop c.st.oh.installed, ∃ i, (c.st.bufs i).caches dev b ∧
      (c.st.bufs i).valid ∧ (c.st.bufs i).data = c.st.ch.latest b) ∧
    (∀ i, (c.st.bufs i).valid → (c.st.bufs i).data = c.st.ch.latest (c.st.bufs i).blockno) ∧
    ∀ p i, (c.thread p).prog = .ret () → (c.st.bufs i).lock = some p →
      (c.st.bufs i).valid ∧ (c.st.bufs i).data = c.st.ch.latest (c.st.bufs i).blockno := by
  have hholds := store_holds hc
  have hcache := hholds.inv.cache
  refine ⟨hcache.uniq, ?_, ?_, ?_, hcache.data, ?_⟩
  · intro i
    refine ⟨hcache.ref i, ?_⟩
    rw [hcache.ref i, refsOf]
    split <;> omega
  · intro i hv hl hlh
    rw [hcache.data i hv]
    rcases hcache.disk (c.st.bufs i).blockno with hd | hb | ⟨j, hcj, hvj, hdj⟩
    · exact hd.symm
    · exact absurd (List.mem_of_mem_drop hb) hlh
    · -- Only a locked buffer can be ahead of the disk without being logged.
      have hji := hcache.uniq j i _ hcj (caches_iff.mpr ⟨hcache.dev_eq_of_valid hv, rfl⟩)
      rw [hji] at hdj
      exact absurd hl (hcache.dirty i hdj)
  · intro b hb
    obtain ⟨i, hci, hv⟩ := hcache.pinned b hb
    refine ⟨i, hci, hv, ?_⟩
    rw [hcache.data i hv, (caches_iff.mp hci).2]
  · intro p i hprog hl
    have hsafe := hholds.safe p
    rw [hprog] at hsafe
    obtain ⟨H, o, hvalid, hknows⟩ := hsafe
    obtain ⟨x, hx⟩ := Option.isSome_iff_exists.mp ((hknows.lock i).mp hl)
    have hv := (hknows.held i x hx).valid.trans (hvalid i x hx)
    exact ⟨hv, hcache.data i hv⟩

/-! ## Runs -/

/-- The state after `p` has run a program alone. -/
def after (p : P) (m : BioProg P Unit) (s : Store P) : Store P := (m.exec p s).state

/-- Two operations overlap; the first logs block 40 and ends while the second still runs. -/
def overlap : Store Bool :=
  let s := after false beginOp (boot 2 rootdev fun _ => Block.zero)
  let s := after true beginOp s
  let s := after false (bread rootdev 40 >>= fun _ => return ()) s
  let s := after false (modify 0 fun _ _ => 7) s
  let s := after false (logWrite 0) s
  let s := after false (brelse 0) s
  after false endOp s

/-- The two overlapping operations are a run of the system. -/
theorem overlap_reachable (own : Bool) :
    Reachable (StoreCall own (· = rootdev)) (QuietStart rootdev)
      ⟨overlap, fun _ => ⟨.ret (), none⟩⟩ := by
  have h : Reachable (StoreCall own (· = rootdev)) (QuietStart rootdev)
      (⟨boot 2 rootdev fun _ => Block.zero, fun _ => ⟨.ret (), none⟩⟩ : Config Bool _ Chan) :=
    ReachableWhile.start (boot_quietStart (by decide) 2 _)
  have h := h.call false (.beginOp (by decide)) rfl
  have h := h.call true (.beginOp (by decide)) rfl
  have h := h.call false (.bread (b := 40) rfl) rfl
  have h := h.call false (.modify (i := 0) (fun _ _ => 7) rfl) rfl
  have h := h.call false (.logWrite (i := 0) rfl fun _ => by decide) rfl
  have h := h.call false (.brelse (i := 0) rfl rfl) rfl
  exact h.call false (.endOp (by decide)) rfl

/-- The block of the operation that has ended is listed for the commit to come. -/
theorem overlap_group_commit :
    overlap.oh.ended = [(false, [40])] ∧ overlap.oh.ops = [true] ∧ 40 ∈ overlap.log.lh := by
  obtain ⟨-, -, -, -, hended, -⟩ := group_commit (overlap_reachable true)
  refine ⟨rfl, rfl, ?_⟩
  rcases hended (false, [40]) (by decide) 40 (by decide) with hlh | ⟨hc, -⟩
  · exact hlh
  · cases hc

/-- The pinned buffer keeps the data that were logged. -/
theorem overlap_coherent :
    (overlap.bufs 0).refcnt = 1 ∧ (overlap.bufs 0).data = overlap.ch.latest 40 := by
  obtain ⟨-, href, -, -, hdata, -⟩ := cache_coherent (overlap_reachable false)
  refine ⟨?_, hdata 0 rfl⟩
  rw [(href 0).1]
  decide

/-- One process reads block 5 of device 1, and then changes block 5 of device 2. -/
def twoDevices : Store Unit :=
  let s := after () (bread 1 5 >>= fun _ => return ()) (boot 2 rootdev fun _ => Block.zero)
  let s := after () (brelse 0) s
  let s := after () (bread 2 5 >>= fun _ => return ()) s
  let s := after () (modify 1 fun _ _ => 7) s
  let s := after () (bwrite 1) s
  after () (brelse 1) s

/-- The driver ignores the device number, so with two devices in use a valid buffer that is
neither locked nor listed can disagree with the disk. -/
theorem twoDevices_incoherent :
    ∃ c : Config Unit (Store Unit) Chan,
      Reachable (StoreCall false (· ≠ 0)) (QuietStart rootdev) c ∧
      ∃ i, (c.st.bufs i).valid ∧ (c.st.bufs i).lock = none ∧
        (c.st.bufs i).blockno ∉ c.st.log.lh ∧
        (c.st.bufs i).data ≠ c.st.disk (c.st.bufs i).blockno := by
  refine ⟨⟨twoDevices, fun _ => ⟨.ret (), none⟩⟩, ?_, 0, rfl, rfl, by decide, ?_⟩
  · have h : Reachable (StoreCall false (· ≠ 0)) (QuietStart rootdev)
        (⟨boot 2 rootdev fun _ => Block.zero, fun _ => ⟨.ret (), none⟩⟩ : Config Unit _ Chan) :=
      ReachableWhile.start (boot_quietStart (by decide) 2 _)
    have h := h.call () (.bread (d := 1) (b := 5) (by decide)) rfl
    have h := h.call () (.brelse (i := 0) rfl rfl) rfl
    have h := h.call () (.bread (d := 2) (b := 5) (by decide)) rfl
    have h := h.call () (.modify (i := 1) (fun _ _ => 7) rfl) rfl
    have h := h.call () (.bwrite (i := 1) rfl) rfl
    exact h.call () (.brelse (i := 1) rfl rfl) rfl
  · intro hdata
    have hbyte := congrFun hdata ⟨0, by decide⟩
    revert hbyte
    decide

end RiscvKernel
