import RiscvKernel.StoreContract

/-!
# The sections of the cache and the log

Every critical section of `bio.c` and `log.c` keeps the contract, with what the process
that runs it knows before and after.
-/

namespace RiscvKernel

open Threads Function
open List (count_pos_iff drop_zero mem_cons mem_singleton)

variable {P : Type} [DecidableEq P] {dev : ℕ} {own : Bool} {p : P} {H : BufId → Option Handle}
  {W : Option (BufId × ℕ)} {v : Option CommitView} {o : Bool} {s s' : Store P} {i : BufId}

/-- What `p` knows after a section of its own that changes one buffer. -/
theorem Knows.touch (h : Knows dev p H W v o s) {u : Buf P} {l : List P} {x : Option Handle}
    {H' : BufId → Option Handle} {W' : Option (BufId × ℕ)} {v' : Option CommitView}
    (hH : H' = update H i x)
    (hbufs : s'.bufs = update s.bufs i u)
    (husers : s'.ch.users = update s.ch.users i l)
    (hdirty : ∀ j, j ≠ i → s'.ch.dirty j = s.ch.dirty j)
    (hdisk : ∀ j h, j ≠ i → H j = some h → s'.disk h.block = s.disk h.block)
    (hW : ∀ j b, W = some (j, b) → j = i)
    (hcount : l.count p =
      (if x.isSome then 1 else 0) + if W'.map Prod.fst = some i then 1 else 0)
    (hlock : u.lock = some p ↔ x.isSome)
    (hheld : ∀ h, x = some h → u.caches dev h.block ∧ u.valid = h.valid ∧
      (h.clean → s'.ch.dirty i = false) ∧ (h.flushed → s'.disk h.block = u.data))
    (hW' : ∀ j b, W' = some (j, b) → j = i ∧ u.caches dev b)
    (hops : s'.oh.ops = s.oh.ops) (hview : CommitView.Describes p s' v') :
    Knows dev p H' W' v' o s' := by
  subst hH
  have hself : s'.bufs i = u := by rw [hbufs, update_self]
  have hother : ∀ j, j ≠ i → s'.bufs j = s.bufs j := fun j hj => by
    rw [hbufs, update_of_ne hj]
  refine ⟨?_, ?_, ?_, ?_, ?_, hview⟩
  · intro j
    by_cases hj : j = i
    · subst hj
      rw [husers, update_self, update_self]
      exact hcount
    · have hWj : W.map Prod.fst ≠ some j := by
        rcases W with - | ⟨k, b⟩
        · exact fun hc => by cases hc
        · intro hc
          exact hj ((Option.some.inj hc).symm.trans (hW k b rfl))
      have hWj' : W'.map Prod.fst ≠ some j := by
        rcases W' with - | ⟨k, b⟩
        · exact fun hc => by cases hc
        · intro hc
          exact hj ((Option.some.inj hc).symm.trans (hW' k b rfl).1)
      rw [husers, update_of_ne hj, update_of_ne hj, h.count j, if_neg hWj,
        if_neg hWj']
  · intro j
    by_cases hj : j = i
    · rw [hj, hself, update_self]
      exact hlock
    · rw [hother j hj, update_of_ne hj]
      exact h.lock j
  · intro j hd hjd
    by_cases hj : j = i
    · subst hj
      rw [update_self] at hjd
      obtain ⟨hc, hv, hcl, hf⟩ := hheld hd hjd
      rw [← hself] at hc hv hf
      exact ⟨hc, hv, hcl, hf⟩
    · rw [update_of_ne hj] at hjd
      obtain ⟨hc, hv, hcl, hf⟩ := h.held j hd hjd
      rw [← hother j hj] at hc hv hf
      rw [← hdirty j hj] at hcl
      rw [← hdisk j hd hj hjd] at hf
      exact ⟨hc, hv, hcl, hf⟩
  · intro j b hjb
    obtain ⟨rfl, hc⟩ := hW' j b hjb
    rwa [hself]
  · rw [hops]
    exact h.op

/-- A process holds the lock of every buffer it has a handle on. -/
theorem Knows.lock_eq (h : Knows dev p H W v o s) {hd : Handle} (hi : H i = some hd) :
    (s.bufs i).lock = some p := (h.lock i).mpr (by rw [hi]; rfl)

/-- A process holding a buffer has exactly one reference to it. -/
theorem Knows.count_eq (h : Knows dev p H none v o s) {hd : Handle} (hi : H i = some hd) :
    (s.ch.users i).count p = 1 := by
  rw [h.count i, hi]
  rfl

omit [DecidableEq P] in
/-- The view of a `commit()` depends on the log alone. -/
theorem CommitView.Describes.congr (h : CommitView.Describes p s v) (hlog : s'.log = s.log)
    (hoh : s'.oh = s.oh) : CommitView.Describes p s' v := by
  unfold CommitView.Describes at h ⊢
  rw [hlog, hoh]
  exact h

/-! ## The buffer cache -/

/-- A section that changes one buffer and its callers, and neither the block the buffer
caches nor what is known of the log and the disk. -/
theorem touch_good {b : ℕ} {u : Buf P} {l : List P} {x : Option Handle}
    {H' : BufId → Option Handle} {W' : Option (BufId × ℕ)} {w : List Chan}
    (hinv : StoreInv dev s) (h : Knows dev p H W v o s) (hH : H' = update H i x)
    (hlru : ∀ j, j ∈ s'.lru)
    (hbufs : s'.bufs = update s.bufs i u)
    (hch : s'.ch = { s.ch with users := update s.ch.users i l })
    (hsame : s'.disk = s.disk ∧ s'.log = s.log ∧ s'.oh = s.oh)
    (hc : (s.bufs i).caches dev b) (hu : u.caches dev b)
    (href : u.refcnt - l.length = (s.bufs i).refcnt - (s.ch.users i).length)
    (hvalid : (s.bufs i).valid → u.valid) (hdata : u.valid → u.data = s.ch.latest b)
    (hheld : (∀ q, (s.bufs i).lock = some q → q = p) ∨
      u.valid = (s.bufs i).valid ∧ u.data = (s.bufs i).data)
    (hwait : .buf i ∉ w → (s.bufs i).lock ≠ none → u.lock ≠ none)
    (hclean : s.ch.dirty i → u.lock ≠ none)
    (hcounts : ∀ q, q ≠ p → l.count q = (s.ch.users i).count q)
    (hlocks : ∀ q, q ≠ p → (u.lock = some q ↔ (s.bufs i).lock = some q))
    (hW : ∀ j b, W = some (j, b) → j = i)
    (hcount : l.count p =
      (if x.isSome then 1 else 0) + if W'.map Prod.fst = some i then 1 else 0)
    (hlock : u.lock = some p ↔ x.isSome)
    (hx : ∀ h, x = some h → h.block = b ∧ u.valid = h.valid ∧
      (h.clean → s.ch.dirty i = false) ∧ (h.flushed → s.disk b = u.data))
    (hW' : ∀ j b', W' = some (j, b') → j = i ∧ b' = b) :
    (storeContract P dev own).inv s' ∧ (storeContract P dev own).guar p s w s' ∧
      Knows dev p H' W' v o s' := by
  obtain ⟨hdisk, hlog, hoh⟩ := hsame
  obtain ⟨hdev, hblock⟩ := caches_iff.mp hc
  obtain ⟨hudev, hublock⟩ := caches_iff.mp hu
  -- Whoever holds the lock is a caller: `p` by its handle, another process as before.
  have hmem : ∀ q, u.lock = some q → q ∈ l := by
    intro q hq
    refine count_pos_iff.mp ?_
    by_cases hqp : q = p
    · subst hqp
      rw [hcount, if_pos (hlock.mp hq)]
      omega
    · rw [hcounts q hqp]
      exact count_pos_iff.mpr (hinv.cache.lock i q ((hlocks q hqp).mp hq))
  refine ⟨⟨?_, ?_, ?_⟩, ⟨?_, ?_⟩, ?_⟩
  · rw [hlog]
    exact hinv.dev_eq
  · rw [hlog, hoh, hdisk, hch]
    refine hinv.cache.touch hlru hbufs rfl rfl rfl (hudev.trans hdev.symm)
      (hublock.trans hblock.symm) hdev href hmem hvalid ?_ hclean
    rwa [hblock]
  · rw [hlog, hoh]
    exact hinv.group
  · refine CacheGuar.touch hbufs (by rw [hch]) (fun _ _ => by rw [hch]) hcounts
      (.inr ⟨hudev.trans hdev.symm, hublock.trans hblock.symm⟩) hlocks ?_
      (fun _ _ _ _ => by rw [hdisk]) hwait
    exact hheld.imp_right fun hsame => ⟨hsame.1, hsame.2, by rw [hch]⟩
  · rw [hlog, hoh]
    exact GroupGuar.refl _ _ _ _
  · refine h.touch hH hbufs (by rw [hch]) (fun _ _ => by rw [hch]) (fun _ _ _ _ => by rw [hdisk]) hW
      hcount hlock ?_ ?_ (by rw [hoh]) (h.view.congr hlog hoh)
    · intro hd hhd
      obtain ⟨rfl, hx⟩ := hx hd hhd
      rw [hch, hdisk]
      exact ⟨hu, hx⟩
    · intro j b' hjb
      obtain ⟨rfl, rfl⟩ := hW' j b' hjb
      exact ⟨rfl, hu⟩

/-- The section of `bget` gives a reference to a buffer that caches the block. -/
theorem bgetSection_good {b : ℕ} (hinv : StoreInv dev s) (h : Knows dev p H none v o s) :
    (storeContract P dev own).Good p s (fun _ => Knows dev p H none v o)
      (fun i => Knows dev p H (some (i, b)) v o) (bgetSection dev b p s) := by
  have hcons : ∀ i q, q ≠ p → (p :: s.ch.users i).count q = (s.ch.users i).count q :=
    fun i q hq => List.count_cons_of_ne hq.symm
  have hcount : ∀ i, (p :: s.ch.users i).count p = (if (H i).isSome then 1 else 0) + 1 := by
    intro i
    rw [List.count_cons_self, h.count i]
    simp
  unfold bgetSection
  split
  · rename_i i hfind
    have hc : (s.bufs i).caches dev b := by simpa using List.find?_some hfind
    have hblock := (caches_iff.mp hc).2
    refine fun _ => touch_good hinv h (update_eq_self i H).symm hinv.cache.mem_lru rfl
      rfl ⟨rfl, rfl, rfl⟩ hc hc ?_ id (hblock ▸ hinv.cache.data i) (.inr ⟨rfl, rfl⟩)
      (fun _ hl => hl) (hinv.cache.dirty i) (hcons i) (fun _ _ => Iff.rfl) (by simp) ?_ (h.lock i)
      ?_ (by rintro j b' ⟨rfl, rfl⟩; exact ⟨rfl, rfl⟩)
    · rw [List.length_cons]
      push_cast
      omega
    · rw [hcount]
      simp
    · intro hd hi
      obtain ⟨hcd, hv, hcl, hf⟩ := h.held i hd hi
      have hb : hd.block = b := (caches_iff.mp hcd).2.symm.trans hblock
      exact ⟨hb, hv, hcl, hb ▸ hf⟩
  · rename_i hfind
    have hmiss : ∀ j, ¬ (s.bufs j).caches dev b := by
      intro j
      simpa using List.find?_eq_none.mp hfind j (hinv.cache.mem_lru j)
    split
    · rename_i i hfree
      have href : (s.bufs i).refcnt = 0 := by simpa using List.find?_some hfree
      obtain ⟨hnil, hunlocked, -⟩ := hinv.cache.unused href
      have hnone : H i = none := by
        cases hi : H i with
        | none => rfl
        | some hd =>
          rw [h.lock_eq hi] at hunlocked
          cases hunlocked
      refine fun _ => ⟨⟨hinv.dev_eq, ?_, hinv.group⟩, ⟨?_, GroupGuar.refl _ _ _ _⟩, ?_⟩
      · exact hinv.cache.recycle href hmiss rfl rfl rfl rfl
      · refine CacheGuar.touch (i := i) rfl rfl (fun _ _ => rfl) (hcons i) (.inl hnil)
          (fun _ _ => Iff.rfl) (.inl ?_) (fun _ _ _ _ => rfl) fun _ hl => absurd hunlocked hl
        intro q hq
        rw [hunlocked] at hq
        cases hq
      · refine h.touch (update_eq_self i H).symm rfl rfl (fun _ _ => rfl)
          (fun _ _ _ _ => rfl) (by simp) (by rw [hcount]; simp) (h.lock i) (by simp [hnone]) ?_ rfl
          (h.view.congr rfl rfl)
        rintro j b' ⟨rfl, rfl⟩
        exact ⟨rfl, caches_iff.mpr ⟨rfl, rfl⟩⟩
    · exact .inl rfl

/-- `acquiresleep` turns a reference into a held buffer, or sleeps while it is locked. -/
theorem acquire_good {b : ℕ} (hinv : StoreInv dev s) (h : Knows dev p H (some (i, b)) v o s) :
    (storeContract P dev own).Good p s (fun _ : Unit => Knows dev p H (some (i, b)) v o)
      (fun _ s' => H i = none ∧ ∃ x,
        Knows dev p (update H i (some ⟨b, x, true, false⟩)) none v o s')
      (match (s.bufs i).lock with
        | some _ => .sleep (.buf i) () s []
        | none => .done () (s.setBuf i { s.bufs i with lock := some p }) []) := by
  have hc := h.ref i b rfl
  split
  · rename_i q hq
    refine fun _ => ⟨hinv, ⟨CacheGuar.of_eq rfl rfl rfl, GroupGuar.refl _ _ _ _⟩, ?_, h⟩
    simp [storeContract, hq]
  · rename_i hfree
    have hnone : H i = none := by
      cases hi : H i with
      | none => rfl
      | some hd =>
        rw [h.lock_eq hi] at hfree
        cases hfree
    have hclean : s.ch.dirty i = false := by
      cases hd : s.ch.dirty i with
      | false => rfl
      | true => exact absurd hfree (hinv.cache.dirty i hd)
    have hcount := h.count i
    rw [hnone] at hcount
    refine fun _ => And.imp_right (And.imp_right fun hk => ⟨hnone, (s.bufs i).valid, hk⟩)
      (touch_good hinv h rfl hinv.cache.mem_lru rfl (by rw [update_eq_self]; rfl)
      ⟨rfl, rfl, rfl⟩ hc hc rfl id ((caches_iff.mp hc).2 ▸ hinv.cache.data i) (.inr ⟨rfl, rfl⟩)
      (fun _ hl => absurd hfree hl) (fun _ => Option.some_ne_none p) (fun _ _ => rfl)
      (fun q hq => by simp [hfree, hq.symm]) (by rintro j b' ⟨rfl, rfl⟩; rfl)
      (by simpa using hcount) (by simp) ?_ (by simp))
    rintro hd ⟨rfl⟩
    exact ⟨rfl, rfl, fun _ => hclean, fun hf => by cases hf⟩

/-- `virtio_disk_rw(b, 0)` on a buffer that is not valid fills it. -/
theorem fill_good {hd : Handle} (hinv : StoreInv dev s) (h : Knows dev p H none v o s)
    (hi : H i = some hd) (hv : hd.valid = false) :
    (storeContract P dev own).inv
        (s.setBuf i { s.bufs i with data := s.disk (s.bufs i).blockno, valid := true }) ∧
      (storeContract P dev own).guar p s []
        (s.setBuf i { s.bufs i with data := s.disk (s.bufs i).blockno, valid := true }) ∧
      Knows dev p (update H i (some ⟨hd.block, true, hd.clean, true⟩)) none v o
        (s.setBuf i { s.bufs i with data := s.disk (s.bufs i).blockno, valid := true }) := by
  have hdesc := h.held i hd hi
  have hl := h.lock_eq hi
  obtain ⟨hdev, hblock⟩ := caches_iff.mp hdesc.caches
  have hinvalid : (s.bufs i).valid = false := hdesc.valid.trans hv
  -- An invalid buffer is neither pinned nor dirty, so its block is up to date on disk.
  have hlatest : s.disk (s.bufs i).blockno = s.ch.latest (s.bufs i).blockno := by
    have habsurd : ∀ j, (s.bufs j).caches dev (s.bufs i).blockno → (s.bufs j).valid → False := by
      intro j hc hvj
      rw [hinv.cache.uniq j i _ hc (caches_iff.mpr ⟨hdev, rfl⟩), hinvalid] at hvj
      cases hvj
    rcases hinv.cache.disk (s.bufs i).blockno with hd | hb | ⟨j, hc, hvj, -⟩
    · exact hd
    · obtain ⟨j, hc, hvj⟩ := hinv.cache.pinned _ hb
      exact (habsurd j hc hvj).elim
    · exact (habsurd j hc hvj).elim
  refine touch_good hinv h rfl hinv.cache.mem_lru rfl (by rw [update_eq_self]; rfl)
    ⟨rfl, rfl, rfl⟩ hdesc.caches hdesc.caches rfl (fun _ => rfl) (fun _ => hblock ▸ hlatest)
    (.inl fun q hq => (Option.some.inj (hl.symm.trans hq)).symm) (fun _ hl => hl)
    (hinv.cache.dirty i) (fun _ _ => rfl) (fun _ _ => Iff.rfl) (by simp)
    ((h.count_eq hi).trans rfl) (by simp [hl]) ?_ (by simp)
  rintro hd' ⟨rfl⟩
  exact ⟨rfl, rfl, hdesc.clean, fun _ => by rw [hblock]⟩

/-- A holder stores new data in its buffer. -/
theorem setData_good {hd : Handle} {d : Block} (hinv : StoreInv dev s)
    (h : Knows dev p H none v o s) (hi : H i = some hd) (hv : hd.valid = true) :
    (storeContract P dev own).inv (s.setData i d) ∧
      (storeContract P dev own).guar p s [] (s.setData i d) ∧
      Knows dev p (update H i (some ⟨hd.block, true, false, false⟩)) none v o
        (s.setData i d) := by
  have hdesc := h.held i hd hi
  have hl := h.lock_eq hi
  have hdirty : ∀ j, j ≠ i → (s.setData i d).ch.dirty j = s.ch.dirty j := fun j hj => by
    simp [Store.setData, hj]
  have husers := (update_eq_self i s.ch.users).symm
  refine ⟨⟨hinv.dev_eq, ?_, hinv.group⟩, ⟨?_, GroupGuar.refl _ _ _ _⟩, ?_⟩
  · exact hinv.cache.setData hl (hdesc.valid.trans hv)
  · exact CacheGuar.touch rfl husers hdirty (fun _ _ => rfl) (.inr ⟨rfl, rfl⟩)
      (fun _ _ => Iff.rfl) (.inl fun q hq => (Option.some.inj (hl.symm.trans hq)).symm)
      (fun _ _ _ _ => rfl) (fun _ hl => hl)
  · refine h.touch rfl rfl husers hdirty (fun _ _ _ _ => rfl) (by simp)
      ((h.count_eq hi).trans rfl) (by simp [hl]) ?_ (by simp) rfl (h.view.congr rfl rfl)
    rintro hd' ⟨rfl⟩
    exact ⟨hdesc.caches, hdesc.valid.trans hv, (by cases ·), (by cases ·)⟩

/-- The view of a `commit()` that has written block `b`. -/
def CommitView.wrote (b : ℕ) (c : CommitView) : CommitView := { c with written := b :: c.written }

/-- `virtio_disk_rw(b, 1)` by the holder of a valid buffer. -/
theorem write_good {hd : Handle} (hinv : StoreInv dev s) (h : Knows dev p H none v o s)
    (hi : H i = some hd) (hv : hd.valid = true) :
    (storeContract P dev own).inv (s.virtioWrite p i) ∧
      (storeContract P dev own).guar p s [] (s.virtioWrite p i) ∧
      Knows dev p (update H i (some ⟨hd.block, true, true, true⟩)) none
        (v.map (CommitView.wrote hd.block)) o (s.virtioWrite p i) := by
  have hdesc := h.held i hd hi
  have hl := h.lock_eq hi
  have hblock := (caches_iff.mp hdesc.caches).2
  have hvalid := hdesc.valid.trans hv
  have hself : (s.virtioWrite p i).disk (s.bufs i).blockno = (s.bufs i).data := by
    simp [Store.virtioWrite]
  have hother : ∀ q j, j ≠ i → (s.bufs j).lock = some q →
      (s.virtioWrite p i).disk (s.bufs j).blockno = s.disk (s.bufs j).blockno := by
    intro q j hj hq
    have hne := hinv.cache.blockno_ne hj hq hl
    simp [Store.virtioWrite, hne]
  have hdirty : ∀ j, j ≠ i → (s.virtioWrite p i).ch.dirty j = s.ch.dirty j := fun j hj => by
    simp [Store.virtioWrite, hj]
  have hbufs := (update_eq_self i s.bufs).symm
  have husers := (update_eq_self i s.ch.users).symm
  have hwritten : ∀ b ∈ s.oh.written, b ∈ (s.virtioWrite p i).oh.written := by
    intro b hb
    simp only [Store.virtioWrite]
    split
    · exact List.mem_cons_of_mem _ hb
    · exact hb
  refine ⟨⟨hinv.dev_eq, ?_, ?_⟩, ⟨?_, ?_⟩, ?_⟩
  · refine (hinv.cache.flush (i := i) hvalid).clean (i := i) (.inl ?_)
    rw [update_self]
    exact hinv.cache.data i hvalid
  · obtain ⟨h1, h2, h3, h4, h5, h6, h7, h8, hended, h10, h11⟩ := hinv.group
    refine ⟨h1, h2, h3, h4, h5, h6, h7, h8, ?_, h10, h11⟩
    intro e he b hb
    exact (hended e he b hb).imp_right fun ⟨hc, hw⟩ => ⟨hc, hwritten b hw⟩
  · refine CacheGuar.touch hbufs husers hdirty (fun _ _ => rfl) (.inr ⟨rfl, rfl⟩)
      (fun _ _ => Iff.rfl) (.inl ?_) ?_ (fun _ hl => hl)
    · intro q hq
      exact (Option.some.inj (hl.symm.trans hq)).symm
    · intro q hq j hj
      refine hother q j ?_ hj
      rintro rfl
      exact hq (Option.some.inj (hj.symm.trans hl))
  · refine ⟨fun _ _ => Iff.rfl, fun _ _ => Iff.rfl, ?_, fun _ hb => hb⟩
    intro q hq hc
    refine ⟨rfl, rfl, rfl, ?_⟩
    simp [Store.virtioWrite, hc, hq]
  · refine h.touch rfl hbufs husers hdirty ?_ (by simp) ?_ ?_ ?_ (by simp) rfl ?_
    · intro j hj' hj hHj
      have hb := (caches_iff.mp (h.held j hj' hHj).caches).2
      rw [← hb]
      exact hother p j hj (h.lock_eq hHj)
    · exact (h.count_eq hi).trans rfl
    · exact ⟨fun _ => rfl, fun _ => hl⟩
    · rintro hd' ⟨rfl⟩
      refine ⟨hdesc.caches, hvalid, fun _ => ?_, fun _ => ?_⟩
      · simp [Store.virtioWrite]
      · rw [hblock] at hself
        exact hself
    · have hview := h.view
      cases v with
      | none => exact hview
      | some c =>
        obtain ⟨hc, hst, hlh, hinst, hw⟩ := hview
        refine ⟨hc, hst, hlh, hinst, ?_⟩
        intro b hb
        rcases mem_cons.mp hb with rfl | hb
        · simp [Store.virtioWrite, hc, hblock]
        · exact hwritten b (hw b hb)

/-- `releasesleep` on a buffer with nothing left to write. -/
theorem release_good {hd : Handle} (hinv : StoreInv dev s) (h : Knows dev p H none v o s)
    (hi : H i = some hd) (hc : hd.clean = true) :
    (storeContract P dev own).inv (s.setBuf i { s.bufs i with lock := none }) ∧
      (storeContract P dev own).guar p s [.buf i] (s.setBuf i { s.bufs i with lock := none }) ∧
      Knows dev p (update H i none) (some (i, hd.block)) v o
        (s.setBuf i { s.bufs i with lock := none }) := by
  have hdesc := h.held i hd hi
  have hl := h.lock_eq hi
  refine touch_good hinv h rfl hinv.cache.mem_lru rfl (by rw [update_eq_self]; rfl)
    ⟨rfl, rfl, rfl⟩ hdesc.caches hdesc.caches rfl id
    ((caches_iff.mp hdesc.caches).2 ▸ hinv.cache.data i) (.inr ⟨rfl, rfl⟩)
    (fun hw => absurd (mem_singleton.mpr rfl) hw) ?_ (fun _ _ => rfl)
    (fun q hq => by simp [hl, hq.symm]) (by simp) (by simp [h.count_eq hi]) (by simp) (by simp)
    (by rintro j b ⟨rfl, rfl⟩; exact ⟨rfl, rfl⟩)
  intro hdirty
  rw [hdesc.clean hc] at hdirty
  cases hdirty

/-- The critical section of `brelse` drops a reference. -/
theorem unref_good {b : ℕ} (hinv : StoreInv dev s) (h : Knows dev p H (some (i, b)) v o s)
    (hi : H i = none) :
    (storeContract P dev own).inv (s.unref p i) ∧
      (storeContract P dev own).guar p s [] (s.unref p i) ∧
      Knows dev p H none v o (s.unref p i) := by
  have hcount : (s.ch.users i).count p = 1 := by
    rw [h.count i, hi]
    simp
  have hmem : p ∈ s.ch.users i := count_pos_iff.mp (by omega)
  have hc := h.ref i b rfl
  have hlru : ∀ j, j ∈ (s.unref p i).lru := by
    intro j
    have hj := hinv.cache.mem_lru j
    simp only [Store.unref]
    split
    · by_cases hji : j = i
      · rw [hji]
        exact List.mem_cons_self
      · exact List.mem_cons_of_mem _ ((List.mem_erase_of_ne hji).mpr hj)
    · exact hj
  refine touch_good (u := { s.bufs i with refcnt := (s.bufs i).refcnt - 1 })
    (l := (s.ch.users i).erase p) hinv h (update_eq_self i H).symm hlru ?_ ?_ ?_ hc hc ?_ id
      ((caches_iff.mp hc).2 ▸ hinv.cache.data i)
    (.inr ⟨rfl, rfl⟩) (fun _ hl => hl) (hinv.cache.dirty i)
    (fun q hq => List.count_erase_of_ne hq) (fun _ _ => Iff.rfl)
    (by rintro j b' ⟨rfl, rfl⟩; rfl) (by simp [List.count_erase_self, hcount, hi]) (h.lock i)
    (by simp [hi]) (by simp)
  -- The list of the buffers changes when the last reference goes, nothing else does.
  · simp only [Store.unref]
    split <;> rfl
  · simp only [Store.unref]
    split <;> rfl
  · simp only [Store.unref]
    split <;> exact ⟨rfl, rfl, rfl⟩
  · have hlen := List.length_erase_of_mem hmem
    have hpos := List.length_pos_of_mem hmem
    rw [hlen]
    push_cast
    omega

/-! ## The log -/

omit [DecidableEq P] in
/-- While an operation runs, nobody is in `commit()`. -/
theorem GroupInv.committer_none {lg : Log} {oh : OpHistory P} (h : GroupInv lg oh)
    (hops : oh.ops ≠ []) : oh.committer = none := by
  by_contra hc
  exact hops (h.quiet hc)

/-- What a process knows about its buffers survives a change of the log. -/
theorem Knows.withLog (h : Knows dev p H W v o s) {v' : Option CommitView} {o' : Bool}
    (hbufs : s'.bufs = s.bufs) (hdisk : s'.disk = s.disk) (hch : s'.ch = s.ch)
    (hop : p ∈ s'.oh.ops ↔ o' = true) (hview : CommitView.Describes p s' v') :
    Knows dev p H W v' o' s' := by
  obtain ⟨h1, h2, h3, h4, -, -⟩ := h
  refine ⟨?_, ?_, ?_, ?_, hop, hview⟩
  · rw [hch]
    exact h1
  · rw [hbufs]
    exact h2
  · intro i hd hi
    obtain ⟨hc, hv, hcl, hfl⟩ := h3 i hd hi
    refine ⟨?_, ?_, ?_, ?_⟩
    · rwa [hbufs]
    · rwa [hbufs]
    · rwa [hch]
    · rwa [hbufs, hdisk]
  · rw [hbufs]
    exact h4

/-- `bunpin` after the next block of the transaction has been installed. -/
theorem bunpin_good {hd : Handle} {c : CommitView} {rest : List ℕ} (hinv : StoreInv dev s)
    (h : Knows dev p H none (some c) o s) (hi : H i = some hd) (hv : hd.valid = true)
    (hf : hd.flushed = true) (hnext : c.lh.drop c.installed = hd.block :: rest) :
    (storeContract P dev own).inv (s.bunpin i) ∧
      (storeContract P dev own).guar p s [] (s.bunpin i) ∧
      Knows dev p H none (some { c with installed := c.installed + 1 }) o (s.bunpin i) := by
  obtain ⟨hcommitter, hst, hlh, hinst, hwritten⟩ := h.view
  have hdesc := h.held i hd hi
  have hl := h.lock_eq hi
  obtain ⟨hdev, hblock⟩ := caches_iff.mp hdesc.caches
  have hvalid := hdesc.valid.trans hv
  have husers := (update_eq_self i s.ch.users).symm
  have hpins : s.log.lh.drop s.oh.installed = hd.block :: rest := by rw [hlh, hinst, hnext]
  have hpins' : s.log.lh.drop (s.oh.installed + 1) = rest := by
    rw [← List.drop_drop, hpins]
    rfl
  have hnotin : hd.block ∉ rest := by
    have hnodup := hinv.group.lh_nodup.sublist (List.drop_sublist s.oh.installed s.log.lh)
    rw [hpins] at hnodup
    exact (List.nodup_cons.mp hnodup).1
  refine ⟨⟨hinv.dev_eq, ?_, ?_⟩, ⟨?_, ?_⟩, ?_⟩
  · have hcache := hinv.cache
    rw [hpins] at hcache
    have href := hcache.ref i
    show CacheInv dev (s.log.lh.drop (s.oh.installed + 1)) _ _ _ _
    rw [hpins']
    refine hcache.repin hdev ?_ ?_ hvalid (.inr ?_)
    · intro b hb
      rw [hblock] at hb
      simp [hb]
    · rw [hblock, if_neg hnotin, href]
      simp [refsOf, hdev, hblock]
    · rw [hblock, hdesc.flushed hf, hcache.data i hvalid, hblock]
  · obtain ⟨h1, h2, h3, h4, h5, -, h7, h8, h9, h10, h11⟩ := hinv.group
    refine ⟨h1, h2, h3, h4, h5, ?_, h7, h8, h9, h10, h11⟩
    intro hnone
    rw [show s.oh.committer = none from hnone] at hcommitter
    cases hcommitter
  · exact CacheGuar.touch rfl husers (fun _ _ => rfl) (fun _ _ => rfl) (.inr ⟨rfl, rfl⟩)
      (fun _ _ => Iff.rfl) (.inr ⟨rfl, rfl, rfl⟩) (fun _ _ _ _ => rfl) (fun _ hl => hl)
  · refine ⟨fun _ _ => Iff.rfl, fun _ _ => Iff.rfl, ?_, fun _ hb => hb⟩
    intro q hq hc
    exact absurd (Option.some.inj (hc.symm.trans hcommitter)) hq
  · refine h.touch (update_eq_self i H).symm rfl husers (fun _ _ => rfl)
      (fun _ _ _ _ => rfl) (by simp) (h.count i) (h.lock i) ?_ (by simp) rfl
      ⟨hcommitter, hst, hlh, by rw [← hinst]; rfl, hwritten⟩
    intro hd' hi'
    obtain ⟨hc, hv, hcl, hf⟩ := h.held i hd' hi'
    exact ⟨hc, hv, hcl, hf⟩

/-- `log.lh.n = 0` after everything is installed. -/
theorem clearHead_good {c : CommitView} (hinv : StoreInv dev s)
    (h : Knows dev p H none (some c) o s) (hinst : c.lh.length ≤ c.installed)
    (hall : ∀ b ∈ c.lh, b ∈ c.written) :
    (storeContract P dev own).inv s.clearHead ∧
      (storeContract P dev own).guar p s [] s.clearHead ∧
      Knows dev p H none (some ⟨c.start, [], 0, c.written⟩) o s.clearHead := by
  obtain ⟨hcommitter, hst, hlh, hinst', hwritten⟩ := h.view
  have hsome : s.oh.committer ≠ none := by
    rw [hcommitter]
    exact Option.some_ne_none p
  refine ⟨⟨hinv.dev_eq, ?_, ?_⟩, ⟨CacheGuar.of_eq rfl rfl rfl, ?_⟩, ?_⟩
  · have hcache := hinv.cache
    rwa [hlh, hinst', List.drop_eq_nil_of_le hinst] at hcache
  · obtain ⟨h1, h2, -, h4, h5, -, -, h8, hended, h10, h11⟩ := hinv.group
    have hops := h5 hsome
    refine ⟨h1, h2, List.nodup_nil, h4, h5, fun _ => rfl, fun _ _ => rfl, ?_, ?_, h10, h11⟩
    · intro q hq
      rw [show s.clearHead.oh.ops = [] from hops] at hq
      cases hq
    · intro e he b hb
      refine .inr ⟨hsome, ?_⟩
      rcases hended e he b hb with hb | ⟨-, hb⟩
      · rw [hlh] at hb
        exact hwritten b (hall b hb)
      · exact hb
  · refine ⟨fun _ _ => Iff.rfl, fun _ _ => Iff.rfl, ?_, ?_⟩
    · intro q hq hc
      exact absurd (Option.some.inj (hc.symm.trans hcommitter)) hq
    · intro _ _
      refine .inl ?_
      rw [show s.clearHead.log.committing = s.log.committing from rfl, hinv.group.committing,
        hcommitter]
      rfl
  · exact h.withLog rfl rfl rfl h.op ⟨hcommitter, hst, rfl, rfl, hwritten⟩

/-- `begin_op` admits an operation, or sleeps while the log is busy. -/
theorem beginOp_good (hinv : StoreInv dev s) (h : Knows dev p H none none false s) :
    (storeContract P dev own).Good p s (fun _ : Unit => Knows dev p H none none false)
      (fun _ => Knows dev p H none none true)
      (if s.log.committing then .sleep .log () s []
        else if (s.log.lh.length : ℤ) + (s.log.outstanding + 1) * maxopblocks > logblocks then
          .sleep .log () s []
        else
          .done () { s with
            log := { s.log with outstanding := s.log.outstanding + 1 }
            oh := { s.oh with
              ops := p :: s.oh.ops
              opBlocks := update s.oh.opBlocks p [] } } []) := by
  have hnotin : p ∉ s.oh.ops := fun hp => by cases h.op.mp hp
  have hrefl : CacheGuar p s [] s ∧ GroupGuar p s.log s.oh [] s.log s.oh :=
    ⟨CacheGuar.of_eq rfl rfl rfl, GroupGuar.refl _ _ _ _⟩
  split
  · rename_i hbusy
    exact fun _ => ⟨hinv, hrefl, .inl hbusy, h⟩
  · rename_i hfree
    split
    · rename_i hfull
      exact fun _ => ⟨hinv, hrefl, .inr hfull, h⟩
    · rename_i hroom
      have hcommitter : s.oh.committer = none := by
        rw [hinv.group.committing] at hfree
        simpa using hfree
      refine fun _ => ⟨⟨hinv.dev_eq, hinv.cache, ?_⟩, ⟨CacheGuar.of_eq rfl rfl rfl, ?_⟩, ?_⟩
      · obtain ⟨h1, h2, h3, h4, -, h6, -, h8, h9, h10, h11⟩ := hinv.group
        refine ⟨?_, List.nodup_cons.mpr ⟨hnotin, h2⟩, h3, h4, fun hc => absurd hcommitter hc, h6,
          ?_,
          ?_, h9, h10, h11⟩
        · rw [List.length_cons, h1]
          push_cast
          rfl
        · intro _ hnil
          cases hnil
        · intro q hq b hb
          by_cases hqp : q = p
          · subst hqp
            simp at hb
          · have hq' : q ∈ s.oh.ops := (mem_cons.mp hq).resolve_left hqp
            exact h8 q hq' b (by simpa [hqp] using hb)
      · refine ⟨?_, fun _ _ => Iff.rfl, fun _ _ _ => ⟨rfl, rfl, rfl, rfl⟩, ?_⟩
        · intro q hq
          simp [hq]
        · rintro - (hbusy | hfull)
          · exact absurd hbusy hfree
          · exact absurd hfull hroom
      · exact h.withLog rfl rfl rfl (by simp) h.view

/-- The first section of `end_op`. The last operation to end starts `commit()`. -/
theorem endOpSection_good (hinv : StoreInv dev s) (h : Knows dev p H none none true s) :
    (storeContract P dev own).Good p s (fun _ : Unit => Knows dev p H none none true)
      (fun doCommit s' => if doCommit then
          Knows dev p H none (some ⟨s'.log.start, s'.log.lh, 0, []⟩) false s'
        else Knows dev p H none none false s') (endOpSection p s) := by
  have hmem : p ∈ s.oh.ops := h.op.mpr rfl
  have hops : s.oh.ops ≠ [] := List.ne_nil_of_mem hmem
  have hcommitter : s.oh.committer = none := hinv.group.committer_none hops
  have hfree : s.log.committing = false := by
    rw [hinv.group.committing, hcommitter]
    rfl
  obtain ⟨h1, h2, h3, h4, h5, h6, h7, h8, hended, h10, h11⟩ := hinv.group
  have hlen := List.length_erase_of_mem hmem
  have hpos := List.length_pos_of_mem hmem
  have hnotin : p ∉ s.oh.ops.erase p := fun hp => ((h2.mem_erase_iff).mp hp).1 rfl
  have houtstanding : s.log.outstanding - 1 = ((s.oh.ops.erase p).length : ℤ) := by
    rw [hlen, h1]
    omega
  -- Whatever an ended operation logged is listed, since nobody has been committing.
  have hlisted : ∀ e ∈ (p, s.oh.opBlocks p) :: s.oh.ended, ∀ b ∈ e.2, b ∈ s.log.lh := by
    intro e he b hb
    rcases mem_cons.mp he with rfl | he
    · exact h8 p hmem b hb
    · rcases hended e he b hb with hb | ⟨hc, -⟩
      · exact hb
      · exact absurd hcommitter hc
  have hothers : ∀ q, q ≠ p → (q ∈ s.oh.ops.erase p ↔ q ∈ s.oh.ops) := fun q hq =>
    List.mem_erase_of_ne hq
  unfold endOpSection
  simp only [hfree, Bool.false_eq_true, if_false]
  split
  · rename_i hlast
    have hnil : s.oh.ops.erase p = [] := List.length_eq_zero_iff.mp (by omega)
    refine fun _ => ⟨⟨hinv.dev_eq, hinv.cache, ?_⟩, ⟨CacheGuar.of_eq rfl rfl rfl, ?_⟩, ?_⟩
    · refine ⟨houtstanding, h2.erase p, h3, rfl, fun _ => hnil, ?_, ?_, ?_, ?_, h10, h11⟩
      · intro hc
        cases hc
      · intro hc
        cases hc
      · intro q hq
        rw [OpHistory.endOp, hnil] at hq
        cases hq
      · intro e he b hb
        exact .inl (hlisted e he b hb)
    · refine ⟨hothers, ?_, ?_, fun _ _ => .inl rfl⟩
      · intro q hq
        rw [hcommitter]
        simp [hq.symm]
      · intro q _ hc
        rw [hcommitter] at hc
        cases hc
    · refine h.withLog rfl rfl rfl ?_ ⟨rfl, rfl, rfl, h6 hcommitter, by simp⟩
      simpa [OpHistory.endOp] using hnotin
  · rename_i hmore
    refine fun _ => ⟨⟨hinv.dev_eq, hinv.cache, ?_⟩, ⟨CacheGuar.of_eq rfl rfl rfl, ?_⟩, ?_⟩
    · refine ⟨houtstanding, h2.erase p, h3, hfree.symm.trans h4, ?_, h6, ?_, ?_, ?_, h10, h11⟩
      · exact fun hc => absurd hcommitter hc
      · intro _ hnil
        rw [houtstanding, show s.oh.ops.erase p = [] from hnil] at hmore
        exact absurd rfl hmore
      · intro q hq b hb
        exact h8 q (List.mem_of_mem_erase hq) b hb
      · intro e he b hb
        exact .inl (hlisted e he b hb)
    · refine ⟨hothers, fun _ _ => Iff.rfl, fun _ _ _ => ⟨rfl, rfl, rfl, rfl⟩, ?_⟩
      intro hw
      exact absurd (mem_singleton.mpr rfl) hw
    · refine h.withLog rfl rfl rfl ?_ h.view
      simpa [OpHistory.endOp] using hnotin

/-- The last section of `end_op`, after `commit()` has emptied the transaction. -/
theorem finishCommit_good {c : CommitView} (hinv : StoreInv dev s)
    (h : Knows dev p H none (some c) o s) (hlh : c.lh = []) (hinst : c.installed = 0) :
    (storeContract P dev own).inv s.finishCommit ∧
      (storeContract P dev own).guar p s [.log] s.finishCommit ∧
      Knows dev p H none none o s.finishCommit := by
  obtain ⟨hcommitter, -, hlh', hinst', -⟩ := h.view
  refine ⟨⟨hinv.dev_eq, hinv.cache, ?_⟩, ⟨CacheGuar.of_eq rfl rfl rfl, ?_⟩, ?_⟩
  · obtain ⟨h1, h2, h3, -, h5, -, -, h8, hended, h10, h11⟩ := hinv.group
    refine ⟨h1, h2, h3, rfl, fun hc => absurd rfl hc, fun _ => hinst'.trans hinst,
      fun _ _ => hlh'.trans hlh, h8, ?_, ?_, h11⟩
    · intro e he
      cases he
    · intro r hr
      rcases mem_cons.mp hr with rfl | hr
      · intro e he b hb
        rcases hended e he b hb with hb | ⟨-, hb⟩
        · rw [hlh', hlh] at hb
          cases hb
        · exact hb
      · exact h10 r hr
  · refine ⟨fun _ _ => Iff.rfl, ?_, ?_, ?_⟩
    · intro q hq
      rw [hcommitter]
      simp [Store.finishCommit, hq.symm]
    · intro q hq hc
      exact absurd (Option.some.inj (hc.symm.trans hcommitter)) hq
    · intro hw
      exact absurd (mem_singleton.mpr rfl) hw
  · refine h.withLog rfl rfl rfl h.op ?_
    intro hc
    cases hc

/-- The bookkeeping of `log_write` once the block is listed. -/
theorem GroupInv.logged {lg : Log} {oh : OpHistory P} (h : GroupInv lg oh) {lh : List ℕ} {b : ℕ}
    (hcommitter : oh.committer = none) (hops : oh.ops ≠ []) (hnodup : lh.Nodup)
    (hsub : ∀ b' ∈ lg.lh, b' ∈ lh) (hb : b ∈ lh) :
    GroupInv { lg with lh := lh } { oh with
      opBlocks := update oh.opBlocks p (b :: oh.opBlocks p)
      logWrites := lg.committing :: oh.logWrites } := by
  obtain ⟨h1, h2, -, h4, h5, h6, -, h8, h9, h10, h11⟩ := h
  refine ⟨h1, h2, hnodup, h4, h5, h6, fun _ hnil => absurd hnil hops, ?_, ?_, h10, ?_⟩
  · intro q hq b' hb'
    simp only at hb'
    by_cases hqp : q = p
    · subst hqp
      rw [update_self] at hb'
      rcases mem_cons.mp hb' with rfl | hb'
      · exact hb
      · exact hsub b' (h8 q hq b' hb')
    · rw [update_of_ne hqp] at hb'
      exact hsub b' (h8 q hq b' hb')
  · intro e he b' hb'
    exact (h9 e he b' hb').imp_left (hsub b')
  · intro c hc
    rcases mem_cons.mp hc with rfl | hc
    · rw [h4, hcommitter]
      rfl
    · exact h11 c hc

/-- `log_write` by the holder of a valid buffer. -/
theorem logWrite_good {hd : Handle} (hinv : StoreInv dev s) (h : Knows dev p H none none o s)
    (hi : H i = some hd) (hv : hd.valid = true) (howner : own = true → o = true) :
    (storeContract P dev own).Good p s (fun _ : Unit => Knows dev p H none none o)
      (fun _ => Knows dev p (update H i (some { hd with clean := true })) none none o)
      (if s.log.lh.length ≥ logblocks then .panic "too big a transaction"
        else if s.log.outstanding < 1 then .panic "log_write outside of trans"
        else if (s.bufs i).blockno ∈ s.log.lh then .done () (s.logged p i) []
        else .done () (((s.logged p i).bpin i).setHead (s.log.lh ++ [(s.bufs i).blockno])) []) := by
  split
  · exact .inr (.inl rfl)
  split
  · rename_i hout
    refine .inr (.inr ⟨?_, rfl⟩)
    cases own with
    | false => rfl
    | true =>
      have hpos := List.length_pos_of_mem (h.op.mpr (howner rfl))
      rw [hinv.group.outstanding] at hout
      omega
  rename_i hout
  have hops : s.oh.ops ≠ [] := by
    intro hnil
    rw [hinv.group.outstanding, hnil] at hout
    exact hout zero_lt_one
  have hcommitter := hinv.group.committer_none hops
  have hinst := hinv.group.installed hcommitter
  have hdesc := h.held i hd hi
  have hl := h.lock_eq hi
  obtain ⟨hdev, -⟩ := caches_iff.mp hdesc.caches
  have hvalid := hdesc.valid.trans hv
  have hdirty : ∀ j, j ≠ i → (s.logged p i).ch.dirty j = s.ch.dirty j := fun j hj => by
    simp [Store.logged, hj]
  have hbufs := (update_eq_self i s.bufs).symm
  have husers := (update_eq_self i s.ch.users).symm
  have hholder : ∀ q, (s.bufs i).lock = some q → q = p := fun q hq =>
    (Option.some.inj (hl.symm.trans hq)).symm
  have hcache := hinv.cache
  rw [hinst, drop_zero] at hcache
  have hview : ∀ q, q ≠ p → s.oh.committer = some q → False := fun q _ hc => by
    rw [hcommitter] at hc
    cases hc
  split
  · rename_i hlisted
    refine fun _ => ⟨⟨hinv.dev_eq, ?_, ?_⟩, ⟨?_, ?_⟩, ?_⟩
    · show CacheInv dev (s.log.lh.drop s.oh.installed) _ _ _ _
      rw [hinst, drop_zero]
      exact hcache.clean (.inr hlisted)
    · exact hinv.group.logged hcommitter hops hinv.group.lh_nodup (fun _ hb => hb) hlisted
    · exact CacheGuar.touch hbufs husers hdirty (fun _ _ => rfl) (.inr ⟨rfl, rfl⟩)
        (fun _ _ => Iff.rfl) (.inl hholder) (fun _ _ _ _ => rfl) (fun _ hl => hl)
    · exact ⟨fun _ _ => Iff.rfl, fun _ _ => Iff.rfl, fun q hq hc => (hview q hq hc).elim,
        fun _ hb => hb⟩
    · refine h.touch rfl hbufs husers hdirty (fun _ _ _ _ => rfl) (by simp)
        ((h.count_eq hi).trans rfl) ⟨fun _ => rfl, fun _ => hl⟩ ?_ (by simp) rfl h.view
      rintro hd' ⟨rfl⟩
      refine ⟨hdesc.caches, hdesc.valid, fun _ => ?_, hdesc.flushed⟩
      simp [Store.logged]
  · rename_i hnew
    set b := (s.bufs i).blockno with hb
    refine fun _ => ⟨⟨hinv.dev_eq, ?_, ?_⟩, ⟨?_, ?_⟩, ?_⟩
    · show CacheInv dev ((s.log.lh ++ [b]).drop s.oh.installed) _ _ _ _
      rw [hinst, drop_zero]
      have href := hcache.ref i
      have hrepin : CacheInv dev (s.log.lh ++ [b]) (update s.bufs i
          { s.bufs i with refcnt := (s.bufs i).refcnt + 1 }) s.lru s.disk s.ch := by
        refine hcache.repin hdev ?_ ?_ hvalid (.inl (by simp [hb]))
        · intro b' hb'
          simp [hb', hb]
        · rw [href, refsOf, if_neg (fun hc => hnew hc.2), if_pos (by simp [hb])]
          omega
      refine hrepin.clean (i := i) (.inr ?_)
      rw [update_self]
      simp [hb]
    · refine hinv.group.logged hcommitter hops ?_ (fun _ hb => List.mem_append_left _ hb)
        (List.mem_append_right _ (mem_singleton.mpr rfl))
      refine List.nodup_append.mpr ⟨hinv.group.lh_nodup, by simp, ?_⟩
      rintro b' hb' c hc rfl
      rw [mem_singleton] at hc
      exact hnew (hc ▸ hb')
    · exact CacheGuar.touch rfl husers hdirty (fun _ _ => rfl) (.inr ⟨rfl, rfl⟩)
        (fun _ _ => Iff.rfl) (.inl hholder) (fun _ _ _ _ => rfl) (fun _ hl => hl)
    · refine ⟨fun _ _ => Iff.rfl, fun _ _ => Iff.rfl, fun q hq hc => (hview q hq hc).elim, ?_⟩
      rintro - (hbusy | hfull)
      · exact .inl hbusy
      · refine .inr ?_
        show (((s.log.lh ++ [b]).length : ℕ) : ℤ) + _ > _
        rw [List.length_append, List.length_singleton]
        push_cast
        exact lt_trans hfull (by simp [Store.logged, Store.bpin, Store.setBuf])
    · refine h.touch rfl rfl husers hdirty (fun _ _ _ _ => rfl) (by simp)
        ((h.count_eq hi).trans rfl) ⟨fun _ => rfl, fun _ => hl⟩ ?_ (by simp) rfl h.view
      rintro hd' ⟨rfl⟩
      refine ⟨hdesc.caches, hdesc.valid, fun _ => ?_, hdesc.flushed⟩
      simp [Store.logged, Store.bpin, Store.setBuf, Store.setHead]

end RiscvKernel
