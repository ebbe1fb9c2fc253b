import RiscvKernel.Fs.Record

/-!
# Writing files

`writei` stores the bytes of its source in the file, block by block. The contents of
every other file stay.
-/

namespace RiscvKernel

open Threads Function
open Threads.Seq (Runs)

/-! ## Copying from and to user memory -/

/-- All `len` bytes from `va` on are in pages that `ok` accepts. -/
def InPages (ok : ℕ → Bool) (va len : ℕ) : Prop := ∀ k < len, ok ((va + k) / pgsize) = true

/-- All bytes can be copied from the source. -/
def Source.Complete : Source → ℕ → ℕ → Prop
  | kernel _, _, _ => True
  | user _ present, src, len => InPages present src len

/-- All bytes can be copied to the destination. -/
def Target.Complete : Target → ℕ → ℕ → Prop
  | kernel, _, _ => True
  | user writable, dst, len => InPages writable dst len

section Copy

variable {ok : ℕ → Bool} {fuel va len : ℕ}

/-- No more is copied than asked for, and all of it if the copy succeeds. -/
theorem copyPages_spec (hfuel : len ≤ fuel) : (copyPages ok fuel va len).1 ≤ len ∧
    ((copyPages ok fuel va len).2 = true → (copyPages ok fuel va len).1 = len) := by
  induction fuel generalizing va len with
  | zero =>
    have : len = 0 := by omega
    simp [copyPages, this]
  | succ fuel ih =>
    have hpage : va % pgsize < pgsize := Nat.mod_lt _ (by decide)
    rw [copyPages]
    split
    · simp [*]
    · split
      · obtain ⟨h1, h2⟩ := @ih (va - va % pgsize + pgsize)
          (len - min (pgsize - va % pgsize) len) (by omega)
        refine ⟨by dsimp only; omega, fun h => ?_⟩
        have := h2 h
        dsimp only
        omega
      · simp

/-- A copy between present pages succeeds. -/
theorem copyPages_complete (hfuel : len ≤ fuel) (h : InPages ok va len) :
    copyPages ok fuel va len = (len, true) := by
  induction fuel generalizing va len with
  | zero =>
    have : len = 0 := by omega
    simp [copyPages, this]
  | succ fuel ih =>
    have hpage : va % pgsize < pgsize := Nat.mod_lt _ (by decide)
    rw [copyPages]
    split
    · simp [*]
    · rename_i hlen
      have hok : ok (va / pgsize) = true := by simpa using h 0 (by omega)
      have hrest : InPages ok (va - va % pgsize + pgsize)
          (len - min (pgsize - va % pgsize) len) := by
        intro k hk
        have := h (pgsize - va % pgsize + k) (by omega)
        rwa [show va + (pgsize - va % pgsize + k) = va - va % pgsize + pgsize + k by
          have := Nat.mod_le va pgsize
          omega] at this
      rw [if_pos hok]
      dsimp only
      rw [ih (by omega) hrest, Nat.add_sub_cancel' (min_le_right _ _)]

/-- A complete copy copies everything. -/
theorem Source.copyin_spec (source : Source) (src len : ℕ) : (source.copyin src len).1 ≤ len ∧
    ((source.copyin src len).2 = true → (source.copyin src len).1 = len) := by
  cases source with
  | kernel mem => exact ⟨le_rfl, fun _ => rfl⟩
  | user mem present => exact copyPages_spec le_rfl

/-- A complete source is copied. -/
theorem Source.copyin_complete {source : Source} {src len : ℕ} (h : source.Complete src len) :
    source.copyin src len = (len, true) := by
  cases source with
  | kernel mem => rfl
  | user mem present => exact copyPages_complete le_rfl h

/-- A part of a complete source. -/
theorem Source.Complete.sub {source : Source} {src len k m : ℕ} (h : source.Complete src len)
    (hk : k + m ≤ len) : source.Complete (src + k) m := by
  cases source with
  | kernel mem => trivial
  | user mem present =>
    intro j hj
    rw [Nat.add_assoc]
    exact h (k + j) (by omega)

/-- A complete copy copies everything. -/
theorem Target.copyout_spec (target : Target) (dst len : ℕ) : (target.copyout dst len).1 ≤ len ∧
    ((target.copyout dst len).2 = true → (target.copyout dst len).1 = len) := by
  cases target with
  | kernel => exact ⟨le_rfl, fun _ => rfl⟩
  | user writable => exact copyPages_spec le_rfl

/-- If the first byte can be stored, some byte is. -/
theorem Target.Complete.copyout_pos {target : Target} {dst len : ℕ} (h : target.Complete dst 1)
    (hlen : 0 < len) : 0 < (target.copyout dst len).1 := by
  cases target with
  | kernel => exact hlen
  | user writable =>
    have hpage : dst % pgsize < pgsize := Nat.mod_lt _ (by decide)
    obtain ⟨len, rfl⟩ := Nat.exists_eq_add_of_lt hlen
    have hok : writable (dst / pgsize) = true := h 0 Nat.one_pos
    rw [Target.copyout, Nat.zero_add, copyPages, if_neg (by omega), if_pos hok]
    dsimp only
    omega

/-- A complete target is filled. -/
theorem Target.copyout_complete {target : Target} {dst len : ℕ} (h : target.Complete dst len) :
    target.copyout dst len = (len, true) := by
  cases target with
  | kernel => rfl
  | user writable => exact copyPages_complete le_rfl h

/-- A part of a complete target. -/
theorem Target.Complete.sub {target : Target} {dst len k m : ℕ} (h : target.Complete dst len)
    (hk : k + m ≤ len) : target.Complete (dst + k) m := by
  cases target with
  | kernel => trivial
  | user writable =>
    intro j hj
    rw [Nat.add_assoc]
    exact h (k + j) (by omega)

end Copy

/-! ## Writing -/

/-- What storing the first `w` bytes of `src` at offset `off` of file `i`, in memory at `e`,
does: the inode record in memory becomes `d`. -/
structure Stored (sb : Superblock) (V : ℕ → Dinode) (i : ℕ) (e : InodeId) (src : Mem) (off w : ℕ)
    (s s' : Fs) (d : Dinode) : Prop extends Pending sb V i e s s' d where
  /-- Only the addresses change. -/
  fields : d = { (s.itable e).d with addrs := d.addrs }
  /-- The bytes are stored. -/
  bytes : ∀ pos, fileByte sb (update V i d) s'.blocks i pos =
    if off ≤ pos ∧ pos < off + w then src (pos - off) else fileByte sb V s.blocks i pos
  /-- The blocks of the file stay. -/
  kept : ∀ bn, slotOf sb V s.blocks i (bnSlot bn) ≠ 0 →
    slotOf sb (update V i d) s'.blocks i (bnSlot bn) ≠ 0
  /-- The blocks of the bytes stored are there. -/
  mapped : ∀ pos, off ≤ pos → pos < off + w →
    slotOf sb (update V i d) s'.blocks i (bnSlot (pos / bsize)) ≠ 0
  /-- Refusals of `balloc` are counted. -/
  denied_le : s.denied ≤ s'.denied

section Store

variable {sb : Superblock} {V : ℕ → Dinode} {i a off w : ℕ} {e : InodeId} {src : Mem}
  {s s1 s2 : Fs} {d d2 : Dinode}

/-- Nothing is stored yet. -/
theorem Stored.refl (h : Owned sb ∅ V s.blocks) (hV : V i = (s.itable e).d) :
    Stored sb V i e src off 0 s s (s.itable e).d := by
  have hself : update V i (s.itable e).d = V := by
    rw [← hV, update_eq_self]
  refine ⟨Pending.refl h hV, rfl, ?_, ?_, ?_, le_rfl⟩
  · intro pos
    rw [hself, if_neg (by omega)]
  · rw [hself]
    exact fun _ h => h
  · intro pos h1 h2
    omega

/-- `bmap` changes no contents. -/
theorem Stored.bmap {k : ℕ} (h : Stored sb V i e src off w s s1 d)
    (hmap : Mapped sb (update V i d) i e k s1 a s2 d2) :
    Stored sb V i e src off w s s2 d2 := by
  have hd : (s1.itable e).d = d := by
    rw [h.itable, update_self]
  obtain ⟨hitable, hfields, howned, hheld, -, hlow, hdata, hslots, hfound, hdenied, -, hkeep⟩ :=
    hmap
  simp only [update_idem] at howned hdata hslots hfound
  have hstays : ∀ bn, slotOf sb (update V i d) s1.blocks i (bnSlot bn) ≠ 0 →
      slotOf sb (update V i d2) s2.blocks i (bnSlot bn) ≠ 0 := by
    intro bn hne
    by_cases hk : bnSlot bn = k
    · subst hk
      have hs2 := hkeep hne
      subst hs2
      have hd2 : d2 = d := by
        have := congrArg Inode.d (congrFun hitable e)
        rw [update_self, hd] at this
        exact this.symm
      rw [hd2]
      exact hne
    · rw [hslots i _ (.inl (bnSlot_ne_ndirect bn)) fun hc => hk hc.2]
      exact hne
  refine ⟨⟨?_, howned, hheld.trans h.held, fun b hb => (hlow b hb).trans (h.low b hb), ?_, ?_⟩, ?_,
    ?_, fun bn hne => hstays bn (h.kept bn hne), fun pos h1 h2 => hstays _ (h.mapped pos h1 h2),
    h.denied_le.trans hdenied⟩
  · rw [hitable, h.itable, update_self, update_idem]
  · intro j l hj
    rw [hslots j l (Or.inr hj) fun hc => hj hc.1, h.slots j l hj]
  · intro j l hj hl
    rw [hdata j l hl, h.data j l hj hl]
  · rw [hfields, hd, h.fields]
  · intro pos
    rw [← h.bytes pos]
    unfold fileByte
    rw [hdata i _ (bnSlot_ne_ndirect _)]

/-- The positions up to the end of a block are in that block. -/
theorem div_eq_of_chunk {p q c : ℕ} (hle : p ≤ q) (hlt : q < p + c) (hc : p % bsize + c ≤ bsize) :
    q / bsize = p / bsize := by
  unfold bsize at hc ⊢
  omega

/-- Bytes are copied into the block of the next position. -/
theorem Stored.blit {c : ℕ} (h : Stored sb V i e src off w s s1 d)
    (hc : (off + w) % bsize + c ≤ bsize)
    (ha : slotOf sb (update V i d) s1.blocks i (bnSlot ((off + w) / bsize)) = a)
    (hne : a ≠ 0) (hitable : s2.itable = s1.itable) (hheld : s2.held = s1.held)
    (hdenied : s2.denied = s1.denied)
    (hblocks : s2.blocks = update s1.blocks a
      ((s1.blocks a).blit ((off + w) % bsize) c fun k => src (w + k))) :
    Stored sb V i e src off (w + c) s s2 d := by
  subst ha
  have hk := bnSlot_ne_ndirect ((off + w) / bsize)
  have hslots := fun D => slotOf_data (d := D) h.owned hk hne
  have hdata := fun D => dataAt_data (d := D) h.owned hk hne
  refine ⟨⟨hitable.trans h.itable, ?_, hheld.trans h.held, ?_, ?_, ?_⟩, h.fields, ?_, ?_, ?_, ?_⟩
  · rw [hblocks]
    exact h.owned.data hk hne
  · intro b hb
    have hlow := (h.owned.range _ _ hne).1
    have hmeta : sb.bmapstart < sb.nmeta := Superblock.bmapstart_lt_nmeta
    rw [hblocks, update_of_ne (by omega), h.low b hb]
  · intro j l hj
    rw [hblocks, hslots, h.slots j l hj]
  · intro j l hj hl
    rw [hblocks, hdata, if_neg fun hc => hj hc.1, h.data j l hj hl]
  · intro pos
    have hpos : pos % bsize < bsize := Nat.mod_lt _ (by decide)
    have hold := h.bytes pos
    unfold fileByte at hold ⊢
    rw [hblocks, hdata]
    by_cases hbn : pos / bsize = (off + w) / bsize
    · rw [if_pos ⟨rfl, by rw [hbn]⟩, Block.byte_blit _ _ hc]
      have hdiv := Nat.div_add_mod pos bsize
      have hdiv' := Nat.div_add_mod (off + w) bsize
      rw [hbn] at hdiv hold
      by_cases hin : (off + w) % bsize ≤ pos % bsize ∧ pos % bsize < (off + w) % bsize + c
      · rw [Bytes.blit_inside _ _ hin.1 hin.2, if_pos (by omega)]
        congr 1
        omega
      · rw [Bytes.blit_outside _ _ (by omega)]
        rw [dataAt_of_ne hne] at hold
        have hiff : (off ≤ pos ∧ pos < off + (w + c)) ↔ (off ≤ pos ∧ pos < off + w) := by omega
        simp only [hold, hbn, hiff]
    · have hout : ¬ (off + w ≤ pos ∧ pos < off + w + c) :=
        fun hin => hbn (div_eq_of_chunk hin.1 hin.2 hc)
      have hiff : (off ≤ pos ∧ pos < off + (w + c)) ↔ (off ≤ pos ∧ pos < off + w) := by omega
      simp only [if_neg fun hc => hbn (bnSlot_inj (And.right hc)), hold, hiff]
  · intro bn hbn
    rw [hblocks, hslots]
    exact h.kept bn hbn
  · intro pos h1 h2
    rw [hblocks, hslots]
    by_cases hlt : pos < off + w
    · exact h.mapped pos h1 hlt
    · rw [div_eq_of_chunk (by omega) (by omega) hc]
      exact hne
  · rw [hdenied]
    exact h.denied_le

/-- The loop of `writei`, after `tot` bytes. All is stored that is reported; if the copy
fails, `c` bytes more are in the cache. -/
theorem writeiLoop_runs {source : Source} {src n fuel tot : ℕ} {t : Fs}
    (hf : AtFile sb V i e t) (hfuel : n ≤ tot + fuel) (hn : tot ≤ n)
    (hmax : off + n ≤ maxfile * bsize) (hwhole : tot = 0 ∨ tot = n ∨ (off + tot) % bsize = 0)
    (h : Stored sb V i e (fun k => source.mem (src + k)) off tot t s d) :
    Runs (fun _ => False) (writeiLoop sb e source n fuel tot (off + tot) (src + tot)) s
      fun r s' => ∃ c d', r.1 ≤ n ∧ r.2 = off + r.1 ∧ off + r.1 + c ≤ maxfile * bsize ∧
        (r.1 = 0 ∨ r.1 = n ∨ (off + r.1) % bsize = 0) ∧
        Stored sb V i e (fun k => source.mem (src + k)) off (r.1 + c) t s' d' ∧
        (source.Complete src n → c = 0 ∧ s'.unlogged = s.unlogged ∧
          (r.1 < n → t.denied < s'.denied ∧ ∃ pos, off ≤ pos ∧ pos < off + n ∧
            slotOf sb V t.blocks i (bnSlot (pos / bsize)) = 0)) := by
  induction fuel generalizing s d tot with
  | zero =>
    rw [writeiLoop]
    exact .pure ⟨0, d, hn, rfl, by omega, hwhole, h,
      fun _ => ⟨rfl, rfl, by dsimp only; omega⟩⟩
  | succ fuel ih =>
    have hd : (s.itable e).d = d := by
      rw [h.itable, update_self]
    rw [writeiLoop]
    split
    · rename_i hlt
      have hbn : (off + tot) / bsize < maxfile := by
        rw [Nat.div_lt_iff_lt_mul (by decide)]
        omega
      have htype : ((update V i d) i).type ≠ 0 := by
        rw [update_self, h.fields, ← hf.view]
        exact hf.type
      refine .bind (bmap_runs ⟨h.owned, by rw [update_self, hd], hf.lt, htype,
        h.held.trans hf.held⟩ hbn) ?_
      rintro a s1 ⟨d1, hmap⟩
      have h1 := h.bmap hmap
      split
      · rename_i ha
        refine .pure ⟨0, d1, hn, rfl, by omega, hwhole, h1,
          fun _ => ⟨rfl, hmap.unlogged, fun _ => ⟨?_, off + tot, by omega, by omega, ?_⟩⟩⟩
        · exact lt_of_le_of_lt h.denied_le (hmap.denied ha)
        · -- A block that is there is found, and `balloc` is not called.
          by_contra hne
          have hlt := hmap.denied ha
          rw [hmap.keep (h.kept _ hne)] at hlt
          exact absurd hlt (lt_irrefl _)
      · rename_i ha
        have hfound := hmap.found
        rw [update_idem] at hfound
        refine .of_eq_bind (fsRead_eq (by simp [h1.held, hf.held])) ?_
        dsimp only
        generalize hm : min (n - tot) (bsize - (off + tot) % bsize) = m
        have hoff : (off + tot) % bsize < bsize := Nat.mod_lt _ (by decide)
        obtain ⟨hle, hall⟩ := source.copyin_spec (src + tot) m
        have hc : (off + tot) % bsize + (source.copyin (src + tot) m).1 ≤ bsize := by omega
        split
        · rename_i hok
          rw [hall hok] at hc
          have h2 : Stored sb V i e (fun k => source.mem (src + k)) off (tot + m) t
              (s1.write a ((s1.blocks a).blit ((off + tot) % bsize) m
                fun k => source.mem (src + tot + k))) d1 := by
            refine h1.blit hc hfound ha rfl rfl rfl ?_
            simp only [Fs.write_blocks, Nat.add_assoc]
          have hchunk : tot + m = n ∨ (off + (tot + m)) % bsize = 0 := by
            unfold bsize at hm ⊢
            omega
          have hrest := ih (by omega) (by omega) (.inr hchunk) h2
          simp only [← Nat.add_assoc] at hrest
          refine .of_eq_bind rfl (.of_eq_bind (a := ()) ?_ (hrest.mono ?_))
          · simp only [fsRelse, Bp.modify, hall hok, Seq.modify_apply, Fs.release_logged]
          · rintro r s' ⟨c, d', hr, hr2, hrc, hrw, hst, hcomp⟩
            refine ⟨c, d', hr, hr2, hrc, hrw, hst, fun hsrc => ?_⟩
            obtain ⟨h0, hunlogged, hdenied⟩ := hcomp hsrc
            exact ⟨h0, hunlogged.trans hmap.unlogged, hdenied⟩
        · rename_i hfail
          refine .of_eq_bind rfl (.pure ⟨(source.copyin (src + tot) m).1, d1, hn, rfl,
            by dsimp only; omega, hwhole, h1.blit hc hfound ha rfl ?_ rfl ?_, fun hsrc => ?_⟩)
          · simp [Fs.release, Bp.modify]
          · simp [Fs.release, Bp.modify, Nat.add_assoc]
          · rw [Source.copyin_complete (hsrc.sub (by omega))] at hfail
            exact absurd rfl hfail
    · exact .pure ⟨0, d, hn, rfl, by omega, hwhole, h,
        fun _ => ⟨rfl, rfl, by dsimp only; omega⟩⟩

/-- What `writei` does when it reports `tot` bytes, of `w` that reached the cache. -/
structure Wrote (sb : Superblock) (V : ℕ → Dinode) (i : ℕ) (e : InodeId) (src : Mem)
    (off tot w : ℕ) (s s' : Fs) (d : Dinode) : Prop extends Changed sb V i e s s' d where
  /-- Only the addresses and the size change. -/
  fields : d = { (s.itable e).d with addrs := d.addrs, size := d.size }
  /-- The file grows to the end of the bytes reported. -/
  size : d.size.toNat = max (s.itable e).d.size.toNat (off + tot)
  /-- The bytes are stored. -/
  bytes : ∀ pos, fileByte sb (update V i d) s'.blocks i pos =
    if off ≤ pos ∧ pos < off + w then src (pos - off) else fileByte sb V s.blocks i pos
  /-- The blocks of the file stay. -/
  kept : ∀ bn, slotOf sb V s.blocks i (bnSlot bn) ≠ 0 →
    slotOf sb (update V i d) s'.blocks i (bnSlot bn) ≠ 0
  /-- The blocks of the bytes stored are there. -/
  mapped : ∀ pos, off ≤ pos → pos < off + w →
    slotOf sb (update V i d) s'.blocks i (bnSlot (pos / bsize)) ≠ 0

/-- `writei` makes no hole. -/
theorem Wrote.solid {tot : ℕ} (h : Wrote sb V i e src off tot w s s1 d) (hV : V i = (s.itable e).d)
    (hoff : off ≤ (s.itable e).d.size.toNat) (htot : tot ≤ w) (hmax : off + tot ≤ maxfile * bsize)
    (hsolid : Solid sb V s.blocks i) : Solid sb (update V i d) s1.blocks i := by
  obtain ⟨hle, hmap⟩ := hsolid
  rw [hV] at hle hmap
  unfold Solid
  rw [update_self, h.size]
  refine ⟨by omega, fun bn hbn => ?_⟩
  by_cases hold : bn * bsize < (s.itable e).d.size.toNat
  · exact h.kept bn (hmap bn hold)
  · have := h.mapped (bn * bsize) (by omega) (by omega)
    rwa [Nat.mul_div_cancel _ (by decide)] at this

/-- The end of `writei`: set the size and store the record. -/
theorem Stored.finish {tot : ℕ} (h : Stored sb V i e src off w s s1 d)
    (hi : i < sb.ninodes) (hinum : (s.itable e).inum = i) (hheld : s.held = [])
    (hmax : off + tot ≤ maxfile * bsize) :
    Runs (fun _ => False) (do
        Seq.modify fun s =>
          if off + tot > (s.itable e).d.size.toNat then
            s.setD e { (s.itable e).d with size := BitVec.ofNat 32 (off + tot) }
          else s
        iupdate sb e
        return (tot : ℤ)) s1 fun r s' => r = tot ∧ s'.unlogged = s1.unlogged ∧
          s'.denied = s1.denied ∧ ∃ d', Wrote sb V i e src off tot w s s' d' := by
  have hd : (s1.itable e).d = d := by
    rw [h.itable, update_self]
  have hsize : d.size = (s.itable e).d.size := by
    rw [h.fields]
  have hsmall : off + tot < 2 ^ 32 := lt_of_le_of_lt hmax (by decide)
  obtain ⟨n, hn, hmod⟩ : ∃ n : BitVec 32, n.toNat = max d.size.toNat (off + tot) ∧
      (if off + tot > (s1.itable e).d.size.toNat then
        s1.setD e { (s1.itable e).d with size := BitVec.ofNat 32 (off + tot) } else s1) =
      s1.setD e { d with size := n } := by
    rw [hd]
    by_cases hgrow : off + tot > d.size.toNat
    · refine ⟨BitVec.ofNat 32 (off + tot), ?_, if_pos hgrow⟩
      rw [BitVec.toNat_ofNat, Nat.mod_eq_of_lt hsmall]
      omega
    · refine ⟨d.size, by omega, ?_⟩
      rw [if_neg hgrow]
      simp only [Fs.setD, Fs.setInode, ← hd, update_eq_self]
  have hpend : Pending sb V i e s (s1.setD e { d with size := n }) { d with size := n } :=
    h.toPending.setD rfl rfl
  obtain ⟨s', hstore, hunlogged, hdenied, hchanged, hslot, hdata⟩ := hpend.store hi hinum hheld
  have hslot : ∀ l, slotOf sb (update V i { d with size := n }) s'.blocks i l =
      slotOf sb (update V i d) s1.blocks i l := by
    intro l
    rw [hslot l, Fs.setD_blocks]
    refine slotOf_update_congr ?_ ?_ i l <;> rfl
  have hdata : ∀ l, dataAt sb (update V i { d with size := n }) s'.blocks i l =
      dataAt sb (update V i d) s1.blocks i l := by
    intro l
    rw [hdata l, Fs.setD_blocks]
    refine dataAt_update_congr ?_ ?_ i l <;> rfl
  refine .of_eq_bind (a := ()) (t := s1.setD e { d with size := n })
    (congrArg (Outcome.ok ()) hmod) ?_
  refine .of_eq_bind hstore (.pure ?_)
  refine ⟨rfl, hunlogged, hdenied, { d with size := n }, hchanged, ?_, ?_, ?_, ?_, ?_⟩
  · rw [h.fields]
  · rw [← hsize]
    exact hn
  · intro pos
    rw [← h.bytes pos]
    exact congrArg (Block.byte · (pos % bsize)) (hdata _)
  · intro bn hne
    exact (hslot _).trans_ne (h.kept bn hne)
  · intro pos h1 h2
    exact (hslot _).trans_ne (h.mapped pos h1 h2)

/-- `writei`. -/
theorem writei_runs {source : Source} {src n : ℕ} (hf : AtFile sb V i e s)
    (hinum : (s.itable e).inum = i) (hn : n < 2 ^ 32) :
    Runs (fun _ => False) (writei sb e source src off n) s fun r s' =>
      (r = -1 ∧ s' = s ∧ ((s.itable e).d.size.toNat < off ∨ maxfile * bsize < off + n)) ∨
      ∃ (tot c : ℕ) (d : Dinode), r = tot ∧ tot ≤ n ∧ off ≤ (s.itable e).d.size.toNat ∧
        off + n ≤ maxfile * bsize ∧ off + tot + c ≤ maxfile * bsize ∧
        (tot = 0 ∨ tot = n ∨ (off + tot) % bsize = 0) ∧
        Wrote sb V i e (fun k => source.mem (src + k)) off tot (tot + c) s s' d ∧
        (source.Complete src n → c = 0 ∧ s'.unlogged = s.unlogged ∧
          (tot < n → s.denied < s'.denied ∧ ∃ pos, off ≤ pos ∧ pos < off + n ∧
            slotOf sb V s.blocks i (bnSlot (pos / bsize)) = 0)) := by
  have hmax : maxfile * bsize < 2 ^ 32 := by decide
  unfold writei
  refine .gets_bind ?_
  split
  · rename_i hbad
    exact .pure (.inl ⟨rfl, rfl, by omega⟩)
  · rename_i hgood
    rw [Nat.mod_eq_of_lt (by omega)]
    split
    · exact .pure (.inl ⟨rfl, rfl, by omega⟩)
    · rename_i hfit
      refine .bind (writeiLoop_runs hf (by omega) (Nat.zero_le n) (by omega) (.inl rfl)
        (Stored.refl hf.owned hf.view)) ?_
      rintro ⟨tot, off'⟩ s1 ⟨c, d, htot, hoff', hc, hwhole, hst, hcomp⟩
      dsimp only at htot hoff' hc hwhole hst hcomp ⊢
      subst hoff'
      refine (hst.finish hf.lt hinum hf.held (by omega)).mono ?_
      rintro r s' ⟨rfl, hunlogged, hdenied, d', hwrote⟩
      refine .inr ⟨tot, c, d', rfl, htot, by omega, by omega, hc, hwhole, hwrote, fun hsrc => ?_⟩
      rw [hunlogged, hdenied]
      exact hcomp hsrc

end Store

end RiscvKernel
