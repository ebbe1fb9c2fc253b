import RiscvKernel.Fs.Record
import Mathlib.Data.List.Nodup

/-!
# Truncating files

`itrunc` gives the blocks of a file back one by one: the direct blocks, the blocks
listed in the indirect block, and the indirect block itself. Its blocks are first
detached from the inode and then released from a set of blocks that nothing refers to,
so `bfree` never meets a free block.
-/

namespace RiscvKernel

open Threads Function
open Threads.Seq (Runs)
open List (cons_append map_cons mem_append mem_cons mem_cons_of_mem mem_cons_self mem_map
  mem_range mem_singleton)

/-- The blocks in the slots `ks`. -/
def slotSet (sl : ℕ → ℕ) (ks : List ℕ) : Set ℕ := {b | b ≠ 0 ∧ ∃ k ∈ ks, sl k = b}

/-- Different slots hold different blocks. -/
def InjSlots (sl : ℕ → ℕ) : Prop := ∀ k l, sl k ≠ 0 → sl k = sl l → k = l

/-- Only the free map has changed. -/
structure MapOnly (sb : Superblock) (s s' : Fs) : Prop where
  /-- The same buffers are held. -/
  held : s'.held = s.held
  /-- Every change was logged. -/
  unlogged : s'.unlogged = s.unlogged
  /-- Nothing was refused. -/
  denied : s'.denied = s.denied
  /-- The other blocks stay. -/
  blocks : ∀ b, b < sb.bmapstart ∨ sb.nmeta ≤ b → s'.blocks b = s.blocks b

section Trunc

variable {sb : Superblock} {sl : ℕ → ℕ} {k a i : ℕ} {ks rest : List ℕ} {X : Set ℕ} {V : ℕ → Dinode}
  {s s' t : Fs} {e : InodeId}

theorem slotSet_cons_zero (hk : sl k = 0) : slotSet sl (k :: ks) = slotSet sl ks := by
  ext b
  constructor
  · rintro ⟨hb, l, hl, rfl⟩
    rcases mem_cons.mp hl with rfl | hl
    · exact absurd hk hb
    · exact ⟨hb, l, hl, rfl⟩
  · rintro ⟨hb, l, hl, rfl⟩
    exact ⟨hb, l, mem_cons_of_mem _ hl, rfl⟩

theorem slotSet_cons_diff (hinj : InjSlots sl) (hk : sl k ≠ 0) (hks : k ∉ ks) :
    slotSet sl (k :: ks) \ {sl k} = slotSet sl ks := by
  ext b
  constructor
  · rintro ⟨⟨hb, l, hl, rfl⟩, hne⟩
    rcases mem_cons.mp hl with rfl | hl
    · exact absurd rfl hne
    · exact ⟨hb, l, hl, rfl⟩
  · rintro ⟨hb, l, hl, rfl⟩
    refine ⟨⟨hb, l, mem_cons_of_mem _ hl, rfl⟩, fun heq => ?_⟩
    rw [hinj l k hb heq] at hl
    exact hks hl

theorem mem_slotSet_cons (hk : sl k ≠ 0) : sl k ∈ slotSet sl (k :: ks) :=
  ⟨hk, k, mem_cons_self, rfl⟩

theorem MapOnly.refl (s : Fs) : MapOnly sb s s := ⟨rfl, rfl, rfl, fun _ _ => rfl⟩

theorem MapOnly.trans (h : MapOnly sb s s') (h' : MapOnly sb s' t) : MapOnly sb s t :=
  ⟨h'.held.trans h.held, h'.unlogged.trans h.unlogged, h'.denied.trans h.denied,
    fun b hb => (h'.blocks b hb).trans (h.blocks b hb)⟩

/-- `bfree` changes the free map only. -/
theorem MapOnly.give (ha : a < sb.size) : MapOnly sb s (s.give sb a) :=
  ⟨rfl, rfl, rfl, fun _ hb => give_blocks ha hb⟩

/-- `bfree` of a block that is in use. -/
theorem bfree_eq (h : Owned sb X V s.blocks) (ha : a ∈ X) (hheld : ∀ b ∈ s.held, sb.nmeta ≤ b) :
    bfree sb a s = .ok () (s.give sb a) := by
  obtain ⟨-, hsize, -⟩ := h.extra a ha
  have hused : (s.blocks (sb.bblock a)).bit (a % bpb) = true :=
    (h.bitmap a hsize).mpr (.inr (.inl ha))
  have hmap : sb.bblock a ∉ s.held := by
    intro hmem
    have := hheld _ hmem
    have := Superblock.bblock_lt_nmeta hsize
    omega
  unfold bfree
  simp [fsRead_eq hmap, hused, fsLog, fsRelse, Bp.modify, Fs.release, Fs.give, Fs.write]

/-- The loop of `itrunc` over the direct addresses. -/
theorem truncDirect_runs (hinj : InjSlots sl) (hnodup : (ks ++ rest).Nodup)
    (h : Owned sb (slotSet sl (ks ++ rest)) V s.blocks) (hheld : s.held = [])
    (hks : ∀ k ∈ ks, k < 13 ∧ (s.itable e).d.addr k = sl k) :
    Runs (fun _ => False) (truncDirect sb e ks) s fun _ s' => MapOnly sb s s' ∧
      Owned sb (slotSet sl rest) V s'.blocks ∧ ∃ d,
        s'.itable = update s.itable e { s.itable e with d := d } ∧
        d = { (s.itable e).d with addrs := d.addrs } ∧
        ∀ j, d.addr j = if j ∈ ks then 0 else (s.itable e).d.addr j := by
  induction ks generalizing s with
  | nil =>
    refine .pure ⟨MapOnly.refl s, h, (s.itable e).d, ?_, rfl, fun j => by simp⟩
    rw [update_eq_self]
  | cons k ks ih =>
    rw [cons_append, List.nodup_cons] at hnodup
    obtain ⟨hk, haddr⟩ := hks k mem_cons_self
    rw [truncDirect]
    refine .gets_bind ?_
    rw [haddr]
    split
    · rename_i hzero
      rw [cons_append, slotSet_cons_zero hzero] at h
      refine (ih hnodup.2 h hheld fun l hl => hks l (mem_cons_of_mem _ hl)).mono ?_
      rintro - s' ⟨hmap, howned, d, hitable, hfields, haddrs⟩
      refine ⟨hmap, howned, d, hitable, hfields, fun j => ?_⟩
      rw [haddrs j]
      by_cases hj : j = k
      · subst hj
        simp [haddr, hzero]
      · simp [hj]
    · rename_i hne
      have hmem : sl k ∈ slotSet sl (k :: (ks ++ rest)) := mem_slotSet_cons hne
      have hsize := (h.extra _ hmem).2.1
      refine Runs.of_eq_bind (bfree_eq h hmem (by simp [hheld])) (Runs.modify_bind ?_)
      have hgive := h.give hmem
      rw [cons_append, slotSet_cons_diff hinj hne hnodup.1] at hgive
      generalize ht : (s.give sb (sl k)).setD e (((s.give sb (sl k)).itable e).d.setAddr k 0) = t
      have hd : (t.itable e).d = (s.itable e).d.setAddr k 0 := by
        rw [← ht]
        simp [Fs.setD, Fs.setInode, Fs.give]
      have haddrs : ∀ j, (t.itable e).d.addr j = if j = k then 0 else (s.itable e).d.addr j := by
        intro j
        rw [hd, Dinode.addr_setAddr _ hk (by decide)]
      have hmap : MapOnly sb s t := by
        rw [← ht]
        exact ⟨rfl, rfl, rfl, fun b hb => give_blocks hsize hb⟩
      have howned : Owned sb (slotSet sl (ks ++ rest)) V t.blocks := by
        rw [← ht]
        exact hgive
      refine (ih hnodup.2 howned (hmap.held.trans hheld) fun l hl => ?_).mono ?_
      · obtain ⟨hl13, hladdr⟩ := hks l (mem_cons_of_mem _ hl)
        have hlk : l ≠ k := by
          rintro rfl
          exact hnodup.1 (List.mem_append_left _ hl)
        rw [haddrs, if_neg hlk]
        exact ⟨hl13, hladdr⟩
      · rintro - s' ⟨hmap', howned', d, hitable, hfields, haddrs'⟩
        refine ⟨hmap.trans hmap', howned', d, ?_, ?_, fun j => ?_⟩
        · rw [hitable, ← ht]
          simp [Fs.setD, Fs.setInode, Fs.give]
        · rw [hfields, hd, fields_setAddr]
        · rw [haddrs' j, haddrs]
          by_cases hj : j = k
          · simp [hj]
          · simp [hj]

/-- The loop of `itrunc` over the entries of the indirect block. -/
theorem truncEntries_runs {data : Block} {js : List ℕ} (hinj : InjSlots sl)
    (hnodup : (js.map (ndirect + 1 + ·) ++ rest).Nodup)
    (h : Owned sb (slotSet sl (js.map (ndirect + 1 + ·) ++ rest)) V s.blocks)
    (hheld : ∀ b ∈ s.held, sb.nmeta ≤ b) (hjs : ∀ j ∈ js, data.entry j = sl (ndirect + 1 + j)) :
    Runs (fun _ => False) (truncEntries sb data js) s fun _ s' => MapOnly sb s s' ∧
      Owned sb (slotSet sl rest) V s'.blocks ∧ s'.itable = s.itable := by
  induction js generalizing s with
  | nil => exact .pure ⟨MapOnly.refl s, h, rfl⟩
  | cons j js ih =>
    rw [map_cons, cons_append, List.nodup_cons] at hnodup
    rw [map_cons, cons_append] at h
    have hj := hjs j mem_cons_self
    have hjs' := fun l hl => hjs l (mem_cons_of_mem j hl)
    rw [truncEntries, hj]
    split
    · rename_i hzero
      rw [slotSet_cons_zero hzero] at h
      exact ih hnodup.2 h hheld hjs'
    · rename_i hne
      have hmem : sl (ndirect + 1 + j) ∈ slotSet sl ((ndirect + 1 + j) ::
        (js.map (ndirect + 1 + ·) ++ rest)) := mem_slotSet_cons hne
      have hgive := h.give hmem
      rw [slotSet_cons_diff hinj hne hnodup.1] at hgive
      have hmap : MapOnly sb s (s.give sb (sl (ndirect + 1 + j))) :=
        MapOnly.give (h.extra _ hmem).2.1
      refine .of_eq_bind (bfree_eq h hmem hheld) ?_
      refine (ih hnodup.2 hgive hheld hjs').mono ?_
      rintro - s' ⟨hmap', howned', hitable⟩
      exact ⟨hmap.trans hmap', howned', hitable⟩

/-- The slots are freed once each. -/
theorem nodup_slots : ((List.range nindirect).map (ndirect + 1 + ·) ++ [ndirect]).Nodup := by
  rw [List.nodup_append]
  refine ⟨List.Nodup.map (fun a b h => by simpa using h) List.nodup_range,
    List.nodup_singleton _, ?_⟩
  intro a ha b hb
  obtain ⟨j, -, rfl⟩ := mem_map.mp ha
  rw [mem_singleton.mp hb]
  omega

/-- The part of `itrunc` for the indirect block. -/
theorem truncIndirect_runs (hinj : InjSlots sl)
    (h : Owned sb (slotSet sl ((List.range nindirect).map (ndirect + 1 + ·) ++ [ndirect]))
      V s.blocks)
    (hheld : s.held = []) (hind : (s.itable e).d.addr ndirect = sl ndirect)
    (hentry : ∀ j < nindirect, sl (ndirect + 1 + j) =
      if sl ndirect = 0 then 0 else (s.blocks (sl ndirect)).entry j) :
    Runs (fun _ => False) (truncIndirect sb e) s fun _ s' => MapOnly sb s s' ∧
      Owned sb ∅ V s'.blocks ∧ ∃ d,
        s'.itable = update s.itable e { s.itable e with d := d } ∧
        d = { (s.itable e).d with addrs := d.addrs } ∧
        ∀ j, d.addr j = if j = ndirect then 0 else (s.itable e).d.addr j := by
  unfold truncIndirect
  refine .gets_bind ?_
  rw [hind]
  split
  · rename_i hzero
    have hempty : slotSet sl ((List.range nindirect).map (ndirect + 1 + ·) ++ [ndirect]) = ∅ := by
      ext b
      simp only [Set.mem_empty_iff_false, iff_false]
      rintro ⟨hb, k, hk, rfl⟩
      rcases mem_append.mp hk with hk | hk
      · obtain ⟨j, hj, rfl⟩ := mem_map.mp hk
        rw [hentry j (mem_range.mp hj), if_pos hzero] at hb
        exact hb rfl
      · rw [mem_singleton.mp hk] at hb
        exact hb hzero
    rw [hempty] at h
    refine .pure ⟨MapOnly.refl s, h, (s.itable e).d, ?_, rfl, fun j => ?_⟩
    · rw [update_eq_self]
    · split
      · rename_i hj
        rw [hj, hind, hzero]
      · rfl
  · rename_i hne
    have hmem : sl ndirect ∈
        slotSet sl ((List.range nindirect).map (ndirect + 1 + ·) ++ [ndirect]) :=
      ⟨hne, ndirect, by simp, rfl⟩
    obtain ⟨hdata, hsize, -⟩ := h.extra _ hmem
    refine .of_eq_bind (fsRead_eq (by simp [hheld])) ?_
    refine .bind (truncEntries_runs hinj nodup_slots h ?_ ?_) ?_
    · intro b hb
      rw [hheld] at hb
      rw [mem_singleton.mp hb]
      exact hdata
    · intro j hj
      rw [hentry j (mem_range.mp hj), if_neg hne]
    rintro - s1 ⟨hmap, howned, hitable⟩
    -- the buffer of the indirect block is released as it was read
    have hrelse : s1.release ⟨sl ndirect, s.blocks (sl ndirect), s.blocks (sl ndirect), true⟩ =
        { s1 with held := [] } := by
      have hsame := hmap.blocks (sl ndirect) (.inr hdata)
      dsimp only at hsame
      simp [Fs.release, ← hsame, hmap.held, hheld]
    refine .of_eq_bind (a := ()) (t := { s1 with held := [] }) (congrArg _ hrelse) ?_
    have hmem1 : sl ndirect ∈ slotSet sl [ndirect] := mem_slotSet_cons hne
    have hgive := howned.give hmem1
    rw [slotSet_cons_diff hinj hne (by simp)] at hgive
    have hnil : slotSet sl [] = ∅ := by
      ext b
      simp [slotSet]
    rw [hnil] at hgive
    refine .of_eq_bind (bfree_eq (V := V) (s := { s1 with held := [] }) howned hmem1
      (by simp)) ?_
    refine .modify ?_
    refine ⟨⟨?_, hmap.unlogged, hmap.denied, fun b hb => ?_⟩, hgive,
      (s.itable e).d.setAddr ndirect 0,
      ?_, fields_setAddr _ _ _, fun j => ?_⟩
    · exact hheld.symm
    · exact (give_blocks hsize hb).trans (hmap.blocks b hb)
    · simp [Fs.setD, Fs.setInode, Fs.give, hitable]
    · rw [Dinode.addr_setAddr _ (by decide) (by decide)]

/-- A record without addresses has no slots. -/
theorem slotOf_of_addr_zero {blocks : ℕ → Block} {d : Dinode} (hd : ∀ k, d.addr k = 0) (l : ℕ) :
    slotOf sb (update V i d) blocks i l = 0 := by
  unfold slotOf Dinode.slot
  simp [update_self, hd]

/-- Slots and contents do not depend on the free map. -/
theorem MapOnly.slotOf (hmap : MapOnly sb s s') (h : Owned sb ∅ V s.blocks) (j l : ℕ) :
    slotOf sb V s'.blocks j l = slotOf sb V s.blocks j l :=
  slotOf_congr rfl (fun hj ht hd => hmap.blocks _ (.inr (h.indirect_used hj ht hd).1)) l

/-- The data of files stays. -/
theorem MapOnly.dataAt (hmap : MapOnly sb s s') (h : Owned sb ∅ V s.blocks) (j l : ℕ) :
    dataAt sb V s'.blocks j l = dataAt sb V s.blocks j l := by
  unfold RiscvKernel.dataAt
  rw [hmap.slotOf h]
  split
  · rfl
  · rename_i hne
    exact hmap.blocks _ (.inr (h.range j l hne).1)

/-- The slots of an inode in the order in which `itrunc` frees them. -/
theorem slotSet_all (hi : i < sb.ninodes) (ht : (V i).type ≠ 0) :
    {b | b ≠ 0 ∧ ∃ k, slotOf sb V s.blocks i k = b} =
      slotSet (slotOf sb V s.blocks i)
        (List.range ndirect ++ ((List.range nindirect).map (ndirect + 1 + ·) ++ [ndirect])) := by
  ext b
  constructor
  · rintro ⟨hb, k, rfl⟩
    refine ⟨hb, k, ?_, rfl⟩
    have hk : k < nslots := by
      by_contra hge
      refine hb ?_
      rw [slotOf_alloc hi ht, Dinode.slot, if_neg, if_pos (Or.inr (by omega))]
      unfold nslots at hge
      omega
    simp only [mem_append, mem_range, mem_map, mem_singleton]
    rcases Nat.lt_trichotomy k ndirect with hlt | heq | hgt
    · exact .inl hlt
    · exact .inr (.inr heq)
    · refine .inr (.inl ⟨k - (ndirect + 1), ?_, ?_⟩)
      · unfold nslots at hk
        omega
      · omega
  · rintro ⟨hb, k, -, rfl⟩
    exact ⟨hb, k, rfl⟩

/-- `itrunc` frees every block of the file and stores the empty inode. -/
theorem itrunc_runs (hf : AtFile sb V i e s) (hinum : (s.itable e).inum = i) :
    Runs (fun _ => False) (itrunc sb e) s fun _ s' => s'.unlogged = s.unlogged ∧ ∃ d,
      Changed sb V i e s s' d ∧ d = { (s.itable e).d with addrs := d.addrs, size := 0 } ∧
        ∀ k, d.addr k = 0 := by
  obtain ⟨h, hV, hi, ht, hheld⟩ := hf
  have hinj : InjSlots (slotOf sb V s.blocks i) := fun k l hk heq => (h.inj i k i l hk heq).2
  -- first detach all blocks from the inode
  have hdetach : Owned sb (slotSet (slotOf sb V s.blocks i)
      (List.range ndirect ++ ((List.range nindirect).map (ndirect + 1 + ·) ++ [ndirect])))
      (update V i Dinode.zero) s.blocks := by
    rw [← slotSet_all hi ht]
    refine h.detach (slotOf_of_addr_zero Dinode.addr_zero) fun j hj k => ?_
    exact slotOf_congr (update_of_ne hj _ _) (fun _ _ _ => rfl) k
  have haddr : ∀ k ≤ ndirect, (s.itable e).d.addr k = slotOf sb V s.blocks i k := by
    intro k hk
    rw [slotOf_alloc hi ht, Dinode.slot, if_pos hk, hV]
  have hnodup : (List.range ndirect ++
      ((List.range nindirect).map (ndirect + 1 + ·) ++ [ndirect])).Nodup := by
    rw [List.nodup_append]
    refine ⟨List.nodup_range, nodup_slots, ?_⟩
    intro a ha b hb
    have ha := mem_range.mp ha
    simp only [mem_append, mem_map, mem_range, mem_singleton] at hb
    omega
  unfold itrunc
  refine .bind (truncDirect_runs (e := e) hinj hnodup hdetach hheld fun k hk => ?_) ?_
  · have hk := mem_range.mp hk
    exact ⟨by unfold ndirect at hk; omega, haddr k hk.le⟩
  rintro - s1 ⟨hmap1, howned1, d1, hitable1, hfields1, haddr1⟩
  have hd1 : (s1.itable e).d = d1 := by
    rw [hitable1, update_self]
  refine .bind (truncIndirect_runs (e := e) hinj howned1 (hmap1.held.trans hheld) ?_ ?_) ?_
  · rw [hd1, haddr1, if_neg (by simp), haddr _ le_rfl]
  · intro j hj
    rw [slotOf_indirect hi ht, slotOf_alloc hi ht, Dinode.slot, if_neg (by omega)]
    by_cases hz : (V i).addr ndirect = 0
    · rw [if_pos (.inl hz), if_pos hz]
    · have hblock := hmap1.blocks _ (.inr (h.indirect_used hi ht hz).1)
      rw [if_neg (by unfold nslots; omega), if_neg hz, hblock, Nat.add_sub_cancel_left]
  rintro - s2 ⟨hmap2, howned2, d2, hitable2, hfields2, haddr2⟩
  have hd2 : (s2.itable e).d = d2 := by
    rw [hitable2, update_self]
  have hzero : ∀ k, d2.addr k = 0 := by
    intro k
    rw [haddr2, hd1, haddr1]
    split
    · rfl
    · split
      · rfl
      · rename_i h1 h2
        unfold Dinode.addr
        rw [dif_neg]
        have := mt mem_range.mpr h2
        unfold ndirect at h1 this
        omega
  have hmap := hmap1.trans hmap2
  have hslots : ∀ j l, j ≠ i →
      slotOf sb (update V i d2) s2.blocks j l = slotOf sb V s.blocks j l := by
    intro j l hj
    rw [← hmap.slotOf h]
    exact slotOf_congr (update_of_ne hj _ _) (fun _ _ _ => rfl) l
  have hpend : Pending sb V i e s s2 d2 := by
    refine ⟨?_, ?_, hmap.held, fun b hb => hmap.blocks b (.inl hb), hslots, ?_⟩
    · rw [hitable2, hitable1, update_self, update_idem]
    · refine howned2.of_slots (fun j l => ?_) fun _ _ => rfl
      by_cases hj : j = i
      · subst hj
        rw [slotOf_of_addr_zero hzero, slotOf_of_addr_zero Dinode.addr_zero]
      · refine slotOf_congr ?_ (fun _ _ _ => rfl) l
        rw [update_of_ne hj, update_of_ne hj]
    · intro j l hj _
      rw [← hmap.dataAt h]
      unfold dataAt
      rw [hslots j l hj, hmap.slotOf h]
  have hpend : Pending sb V i e s (s2.setD e { d2 with size := 0 }) { d2 with size := 0 } :=
    hpend.setD rfl rfl
  obtain ⟨s', hstore, hunlogged, -, hchanged, -, -⟩ := hpend.store hi hinum hheld
  refine .modify_bind ?_
  rw [hd2]
  refine .of_eq hstore ⟨hunlogged.trans hmap.unlogged, _, hchanged, ?_, hzero⟩
  rw [hfields2, hd1, hfields1]

end Trunc

end RiscvKernel
