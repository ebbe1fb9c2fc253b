import RiscvKernel.Log

/-!
# The invariant of the buffer cache

What the buffers, the list, the disk and the history variables of the cache have to do
with each other between two critical sections, with one lemma for each thing a section
does to them. `pins` are the logged blocks that are not yet installed.
-/

namespace RiscvKernel

open Function

variable {P : Type}

/-- The references that callers and the log hold on a buffer. -/
def refsOf (dev : ℕ) (pins : List ℕ) (u : Buf P) (users : List P) : ℤ :=
  users.length + if u.dev = dev ∧ u.blockno ∈ pins then 1 else 0

/-- The invariant of a cache in which every buffer in use is of device `dev`. -/
structure CacheInv (dev : ℕ) (pins : List ℕ) (bufs : BufId → Buf P) (lru : List BufId)
    (disk : ℕ → Block) (ch : CacheHistory P) : Prop where
  /-- Every buffer is on the list. -/
  mem_lru : ∀ i, i ∈ lru
  /-- A buffer that was never used has no contents and no callers. -/
  fresh : ∀ i, (bufs i).dev ≠ dev → (bufs i).valid = false ∧ ch.users i = []
  /-- A block is cached at most once. -/
  uniq : ∀ i j b, (bufs i).caches dev b → (bufs j).caches dev b → i = j
  /-- The reference count counts the callers and the pin. -/
  ref : ∀ i, (bufs i).refcnt = refsOf dev pins (bufs i) (ch.users i)
  /-- Only a caller holds the sleep-lock. -/
  lock : ∀ i p, (bufs i).lock = some p → p ∈ ch.users i
  /-- A pinned block is in the cache. -/
  pinned : ∀ b ∈ pins, ∃ i, (bufs i).caches dev b ∧ (bufs i).valid
  /-- A valid buffer holds the data most recently stored for its block. -/
  data : ∀ i, (bufs i).valid → (bufs i).data = ch.latest (bufs i).blockno
  /-- So does the disk, except for pinned blocks and for data not yet written or logged. -/
  disk : ∀ b, disk b = ch.latest b ∨ b ∈ pins ∨
    ∃ i, (bufs i).caches dev b ∧ (bufs i).valid ∧ ch.dirty i
  /-- Only a locked buffer has data not yet written or logged. -/
  dirty : ∀ i, ch.dirty i → (bufs i).lock ≠ none

namespace CacheInv

variable {dev : ℕ} {pins : List ℕ} {bufs bufs' : BufId → Buf P} {lru lru' : List BufId}
  {disk : ℕ → Block} {ch ch' : CacheHistory P} {i : BufId}

variable (h : CacheInv dev pins bufs lru disk ch)

include h

/-- A buffer with a caller is a buffer of the device. -/
theorem dev_eq_of_mem {p : P} (hp : p ∈ ch.users i) :
    (bufs i).dev = dev := by
  by_contra hdev
  rw [(h.fresh i hdev).2] at hp
  cases hp

/-- A locked buffer is a buffer of the device. -/
theorem dev_eq_of_lock {p : P}
    (hp : (bufs i).lock = some p) : (bufs i).dev = dev :=
  h.dev_eq_of_mem (h.lock i p hp)

/-- A valid buffer is a buffer of the device. -/
theorem dev_eq_of_valid (hv : (bufs i).valid = true) :
    (bufs i).dev = dev := by
  by_contra hdev
  rw [(h.fresh i hdev).1] at hv
  cases hv

/-- Two locked buffers cache different blocks. -/
theorem blockno_ne {p q : P} {j : BufId} (hij : i ≠ j)
    (hp : (bufs i).lock = some p) (hq : (bufs j).lock = some q) :
    (bufs i).blockno ≠ (bufs j).blockno := by
  intro hb
  refine hij (h.uniq i j (bufs j).blockno (caches_iff.mpr ⟨h.dev_eq_of_lock hp, hb⟩) ?_)
  exact caches_iff.mpr ⟨h.dev_eq_of_lock hq, rfl⟩

/-- No other buffer caches the block of a buffer in use. -/
theorem not_caches (hi : (bufs i).dev = dev)
    {j : BufId} (hj : j ≠ i) : ¬ (bufs j).caches dev (bufs i).blockno :=
  fun hc => hj (h.uniq j i _ hc (caches_iff.mpr ⟨hi, rfl⟩))

/-- One buffer is replaced by `u`. Only the block of `u` can be pinned, stored or written,
and what the buffer cached before is neither pinned nor dirty. -/
theorem change {pins' : List ℕ} {u : Buf P} {l : List P}
    (hlru : ∀ j, j ∈ lru') (hbufs : bufs' = update bufs i u)
    (husers : ch'.users = update ch.users i l) (hdev : u.dev = dev)
    (huniq : ∀ j, j ≠ i → ¬ (bufs j).caches dev u.blockno)
    (hold : ∀ b, b ≠ u.blockno → (bufs i).caches dev b → b ∉ pins ∧ ch.dirty i = false)
    (hpins : ∀ b, b ≠ u.blockno → (b ∈ pins' ↔ b ∈ pins))
    (hlatest : ∀ b, b ≠ u.blockno → ch'.latest b = ch.latest b)
    (hdirty : ∀ j, j ≠ i → ch'.dirty j = ch.dirty j)
    (href : u.refcnt = refsOf dev pins' u l) (hlock : ∀ p, u.lock = some p → p ∈ l)
    (hpinned : u.blockno ∈ pins' → u.valid) (hdata : u.valid → u.data = ch'.latest u.blockno)
    (hdisk : disk u.blockno = ch'.latest u.blockno ∨ u.blockno ∈ pins' ∨ (u.valid ∧ ch'.dirty i))
    (hclean : ch'.dirty i → u.lock ≠ none) : CacheInv dev pins' bufs' lru' disk ch' := by
  have hself : bufs' i = u := by rw [hbufs, update_self]
  have hother : ∀ j, j ≠ i → bufs' j = bufs j := fun j hj => by
    rw [hbufs, update_of_ne hj]
  have hcaches : ∀ j b, (bufs' j).caches dev b →
      j = i ∧ b = u.blockno ∨ j ≠ i ∧ b ≠ u.blockno ∧ (bufs j).caches dev b := by
    intro j b hc
    by_cases hj : j = i
    · rw [hj, hself] at hc
      exact .inl ⟨hj, (caches_iff.mp hc).2.symm⟩
    · rw [hother j hj] at hc
      exact .inr ⟨hj, fun hb => huniq j hj (hb ▸ hc), hc⟩
  have hself' : (bufs' i).caches dev u.blockno := by
    rw [hself]
    exact caches_iff.mpr ⟨hdev, rfl⟩
  refine ⟨hlru, ?_, ?_, ?_, ?_, ?_, ?_, ?_, ?_⟩
  · intro j hne
    by_cases hj : j = i
    · rw [hj, hself] at hne
      exact absurd hdev hne
    · rw [hother j hj] at hne ⊢
      rw [husers, update_of_ne hj]
      exact h.fresh j hne
  · intro j k b hj hk
    rcases hcaches j b hj with ⟨rfl, rfl⟩ | ⟨-, hb, hj'⟩
    · rcases hcaches k _ hk with ⟨rfl, -⟩ | ⟨-, hb, -⟩
      · rfl
      · exact absurd rfl hb
    · rcases hcaches k b hk with ⟨-, rfl⟩ | ⟨-, -, hk'⟩
      · exact absurd rfl hb
      · exact h.uniq j k b hj' hk'
  · intro j
    by_cases hj : j = i
    · rw [hj, hself, husers, update_self]
      exact href
    · rw [hother j hj, husers, update_of_ne hj, h.ref j]
      unfold refsOf
      congr 2
      refine propext (and_congr_right fun hd => (hpins _ fun hb => huniq j hj ?_).symm)
      exact caches_iff.mpr ⟨hd, hb⟩
  · intro j p hp
    by_cases hj : j = i
    · rw [hj, hself] at hp
      rw [hj, husers, update_self]
      exact hlock p hp
    · rw [hother j hj] at hp
      rw [husers, update_of_ne hj]
      exact h.lock j p hp
  · intro b hb
    by_cases hbu : b = u.blockno
    · subst hbu
      exact ⟨i, hself', by rw [hself]; exact hpinned hb⟩
    · have hb' := (hpins b hbu).mp hb
      obtain ⟨j, hc, hv⟩ := h.pinned b hb'
      have hj : j ≠ i := fun hj => (hold b hbu (hj ▸ hc)).1 hb'
      exact ⟨j, by rwa [hother j hj], by rwa [hother j hj]⟩
  · intro j hv
    by_cases hj : j = i
    · rw [hj, hself] at hv ⊢
      exact hdata hv
    · rw [hother j hj] at hv ⊢
      rw [h.data j hv, hlatest _ fun hb => huniq j hj ?_]
      exact caches_iff.mpr ⟨h.dev_eq_of_valid hv, hb⟩
  · intro b
    by_cases hbu : b = u.blockno
    · subst hbu
      refine hdisk.imp_right (Or.imp_right fun hv => ⟨i, hself', ?_⟩)
      rwa [hself]
    · rw [hlatest b hbu, hpins b hbu]
      refine (h.disk b).imp_right (Or.imp_right ?_)
      rintro ⟨j, hc, hv, hd⟩
      have hj : j ≠ i := by
        rintro rfl
        rw [(hold b hbu hc).2] at hd
        cases hd
      refine ⟨j, ?_⟩
      rw [hother j hj, hdirty j hj]
      exact ⟨hc, hv, hd⟩
  · intro j hd
    by_cases hj : j = i
    · rw [hj] at hd ⊢
      rw [hself]
      exact hclean hd
    · rw [hdirty j hj] at hd
      rw [hother j hj]
      exact h.dirty j hd

/-- A pinned block of a buffer in use is valid there. -/
theorem valid_of_pinned (hi : (bufs i).dev = dev)
    (hb : (bufs i).blockno ∈ pins) : (bufs i).valid := by
  obtain ⟨j, hc, hv⟩ := h.pinned _ hb
  rwa [h.uniq j i _ hc (caches_iff.mpr ⟨hi, rfl⟩)] at hv

/-- A section that changes one buffer without changing the block it caches. -/
theorem touch {u : Buf P} {l : List P}
    (hlru : ∀ j, j ∈ lru') (hbufs : bufs' = update bufs i u)
    (husers : ch'.users = update ch.users i l) (hdirty : ch'.dirty = ch.dirty)
    (hlatest : ch'.latest = ch.latest) (hdev : u.dev = (bufs i).dev)
    (hblock : u.blockno = (bufs i).blockno) (huse : (bufs i).dev = dev)
    (href : u.refcnt - l.length = (bufs i).refcnt - (ch.users i).length)
    (hlock : ∀ p, u.lock = some p → p ∈ l) (hvalid : (bufs i).valid → u.valid)
    (hdata : u.valid → u.data = ch.latest (bufs i).blockno)
    (hclean : ch.dirty i → u.lock ≠ none) : CacheInv dev pins bufs' lru' disk ch' := by
  have hrefs : u.refcnt = refsOf dev pins u l := by
    have hold := h.ref i
    unfold refsOf at hold ⊢
    rw [hdev, hblock]
    omega
  refine h.change hlru hbufs husers (hdev.trans huse) ?_ ?_ (fun _ _ => Iff.rfl)
    (fun _ _ => by rw [hlatest]) (fun _ _ => by rw [hdirty]) hrefs hlock ?_ ?_ ?_ ?_
  all_goals simp only [hblock, hlatest, hdirty]
  · exact fun j hj => h.not_caches huse hj
  · exact fun b hb hc => absurd (caches_iff.mp hc).2.symm hb
  · exact fun hb => hvalid (h.valid_of_pinned huse hb)
  · exact hdata
  · refine (h.disk _).imp_right (Or.imp_right ?_)
    rintro ⟨j, hc, hv, hd⟩
    rw [h.uniq j i _ hc (caches_iff.mpr ⟨huse, rfl⟩)] at hv hd
    exact ⟨hvalid hv, hd⟩
  · exact hclean

/-- A buffer without references is neither used, nor pinned, nor locked. -/
theorem unused (href : (bufs i).refcnt = 0) :
    ch.users i = [] ∧ (bufs i).lock = none ∧ ∀ b ∈ pins, ¬ (bufs i).caches dev b := by
  have hrefs := h.ref i
  rw [href, refsOf] at hrefs
  have hpin : ¬ ((bufs i).dev = dev ∧ (bufs i).blockno ∈ pins) := by
    intro hpin
    rw [if_pos hpin] at hrefs
    omega
  rw [if_neg hpin] at hrefs
  have husers : ch.users i = [] := List.length_eq_zero_iff.mp (by omega)
  refine ⟨husers, ?_, ?_⟩
  · cases hl : (bufs i).lock with
    | none => rfl
    | some p =>
      have := h.lock i p hl
      rw [husers] at this
      cases this
  · intro b hb hc
    obtain ⟨hdev, hblock⟩ := caches_iff.mp hc
    exact hpin ⟨hdev, hblock ▸ hb⟩

/-- Recycling a buffer without references for a block that is not cached. -/
theorem recycle {p : P} {b : ℕ}
    (href : (bufs i).refcnt = 0) (hmiss : ∀ j, ¬ (bufs j).caches dev b)
    (hbufs : bufs' = update bufs i
      { bufs i with dev := dev, blockno := b, valid := false, refcnt := 1 })
    (husers : ch'.users = update ch.users i (p :: ch.users i))
    (hdirty : ch'.dirty = ch.dirty) (hlatest : ch'.latest = ch.latest) :
    CacheInv dev pins bufs' lru disk ch' := by
  obtain ⟨hnil, hunlocked, hunpinned⟩ := h.unused href
  have hclean : ch.dirty i = false := by
    cases hd : ch.dirty i with
    | false => rfl
    | true => exact absurd hunlocked (h.dirty i hd)
  have hnotpin : b ∉ pins := by
    intro hb
    obtain ⟨j, hc, -⟩ := h.pinned b hb
    exact hmiss j hc
  refine h.change h.mem_lru hbufs husers rfl (fun j _ => hmiss j)
    (fun b' _ hc => ⟨fun hb' => hunpinned b' hb' hc, hclean⟩) (fun _ _ => Iff.rfl)
    (fun _ _ => by rw [hlatest]) (fun _ _ => by rw [hdirty]) ?_ ?_
    (fun hb => absurd hb hnotpin) (by simp) ?_ ?_
  · simp [refsOf, hnotpin, hnil]
  · intro q hq
    rw [show (bufs i).lock = some q from hq] at hunlocked
    cases hunlocked
  · rw [hlatest]
    rcases h.disk b with hd | hb | ⟨j, hc, -⟩
    · exact .inl hd
    · exact absurd hb hnotpin
    · exact absurd hc (hmiss j)
  · rw [hdirty, hclean]
    exact fun hd => by cases hd

/-- The holder of a valid buffer stores new data in it. -/
theorem setData {p : P} {d : Block}
    (hlock : (bufs i).lock = some p) (hvalid : (bufs i).valid) :
    CacheInv dev pins (update bufs i { bufs i with data := d }) lru disk
      { ch with
        dirty := update ch.dirty i true
        latest := update ch.latest (bufs i).blockno d } := by
  have huse := h.dev_eq_of_lock hlock
  refine h.change h.mem_lru rfl (update_eq_self i ch.users).symm huse
    (fun j hj => h.not_caches huse hj) (fun b hb hc => absurd (caches_iff.mp hc).2.symm hb)
    (fun _ _ => Iff.rfl) (fun b hb => update_of_ne hb _ _)
    (fun j hj => update_of_ne hj _ _) (h.ref i) (h.lock i) (fun _ => hvalid) ?_ ?_ ?_
  · exact fun _ => (update_self (bufs i).blockno d ch.latest).symm
  · exact .inr (.inr ⟨hvalid, update_self _ _ _⟩)
  · intro _ hnone
    rw [show (bufs i).lock = none from hnone] at hlock
    cases hlock

/-- The data of a valid buffer reach the disk. -/
theorem flush (hvalid : (bufs i).valid) :
    CacheInv dev pins bufs lru (update disk (bufs i).blockno (bufs i).data) ch := by
  refine ⟨h.mem_lru, h.fresh, h.uniq, h.ref, h.lock, h.pinned, h.data, ?_, h.dirty⟩
  intro b
  by_cases hb : b = (bufs i).blockno
  · subst hb
    rw [update_self]
    exact .inl (h.data i hvalid)
  · rw [update_of_ne hb]
    exact h.disk b

/-- The data of a buffer count as written once they are on the disk or logged. -/
theorem clean
    (hdone : disk (bufs i).blockno = ch.latest (bufs i).blockno ∨ (bufs i).blockno ∈ pins) :
    CacheInv dev pins bufs lru disk { ch with dirty := update ch.dirty i false } := by
  have hdirty : ∀ j, update ch.dirty i false j = true → j ≠ i ∧ ch.dirty j = true := by
    intro j hj
    by_cases hji : j = i
    · rw [hji, update_self] at hj
      cases hj
    · rw [update_of_ne hji] at hj
      exact ⟨hji, hj⟩
  refine ⟨h.mem_lru, h.fresh, h.uniq, h.ref, h.lock, h.pinned, h.data, ?_, ?_⟩
  · intro b
    rcases h.disk b with hd | hb | ⟨j, hc, hv, hdj⟩
    · exact .inl hd
    · exact .inr (.inl hb)
    · by_cases hji : j = i
      · rw [hji] at hc
        obtain ⟨-, rfl⟩ := caches_iff.mp hc
        rcases hdone with hd | hb
        · exact .inl hd
        · exact .inr (.inl hb)
      · refine .inr (.inr ⟨j, hc, hv, ?_⟩)
        exact (update_of_ne hji _ _).trans hdj
  · intro j hj
    exact h.dirty j (hdirty j hj).2

/-- Changing the reference count of one buffer together with the pins. -/
theorem repin {pins' : List ℕ} {n : ℤ}
    (hi : (bufs i).dev = dev)
    (hkeep : ∀ b, b ≠ (bufs i).blockno → (b ∈ pins' ↔ b ∈ pins))
    (hn : n = (ch.users i).length + if (bufs i).blockno ∈ pins' then 1 else 0)
    (hvalid : (bufs i).valid)
    (hdisk : (bufs i).blockno ∈ pins' ∨ disk (bufs i).blockno = ch.latest (bufs i).blockno) :
    CacheInv dev pins' (update bufs i { bufs i with refcnt := n }) lru disk ch := by
  refine h.change h.mem_lru rfl (update_eq_self i ch.users).symm hi
    (fun j hj => h.not_caches hi hj) (fun b hb hc => absurd (caches_iff.mp hc).2.symm hb) hkeep
    (fun _ _ => rfl) (fun _ _ => rfl) ?_ (h.lock i) (fun _ => hvalid) (h.data i)
    (hdisk.symm.imp_right .inl) (h.dirty i)
  simpa [refsOf, hi] using hn

end CacheInv

end RiscvKernel
