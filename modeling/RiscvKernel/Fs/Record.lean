import RiscvKernel.Fs.Bmap

/-!
# Inode records and file contents

What is on disk for an inode: its record in an inode block and the bytes of its blocks.
A function that changes an inode first changes it in memory (`Pending`) and then stores
the record (`Changed`); the other inodes stay as they are.
-/

namespace RiscvKernel

open Threads Function

/-- The inode record `i` on disk. -/
def Fs.dinode (s : Fs) (sb : Superblock) (i : ℕ) : Dinode :=
  (s.blocks (sb.iblock i)).dinode (i % ipb)

/-- Byte `pos` of file `i`. -/
def fileByte (sb : Superblock) (V : ℕ → Dinode) (blocks : ℕ → Block) (i pos : ℕ) : UInt8 :=
  (dataAt sb V blocks i (bnSlot (pos / bsize))).byte (pos % bsize)

/-- File `i` is not too large and has no holes. -/
def Solid (sb : Superblock) (V : ℕ → Dinode) (blocks : ℕ → Block) (i : ℕ) : Prop :=
  (V i).size.toNat ≤ maxfile * bsize ∧
    ∀ bn, bn * bsize < (V i).size.toNat → slotOf sb V blocks i (bnSlot bn) ≠ 0

section Records

variable {sb : Superblock} {s : Fs} {X : Set ℕ} {V V' : ℕ → Dinode} {blocks : ℕ → Block} {i : ℕ}

/-- Only the records of existing inodes matter. -/
theorem slotOf_congr_records (hV : ∀ j < sb.ninodes, V' j = V j) (i k : ℕ) :
    slotOf sb V' blocks i k = slotOf sb V blocks i k := by
  unfold slotOf
  by_cases hi : i < sb.ninodes
  · rw [hV i hi]
  · simp [hi]

theorem fileByte_congr_records (hV : ∀ j < sb.ninodes, V' j = V j) (i pos : ℕ) :
    fileByte sb V' blocks i pos = fileByte sb V blocks i pos := by
  unfold fileByte dataAt
  rw [slotOf_congr_records hV]

theorem Solid.congr_records (h : Solid sb V blocks i) (hV : ∀ j < sb.ninodes, V' j = V j)
    (hi : i < sb.ninodes) : Solid sb V' blocks i := by
  unfold Solid
  simp only [slotOf_congr_records hV, hV i hi]
  exact h

theorem Owned.congr_records (h : Owned sb X V blocks) (hV : ∀ j < sb.ninodes, V' j = V j) :
    Owned sb X V' blocks :=
  h.of_slots (slotOf_congr_records hV) fun _ _ => rfl

/-- The records on disk after one of them is stored. -/
theorem dinode_write (d : Dinode) (j : ℕ) :
    (s.write (sb.iblock i) ((s.blocks (sb.iblock i)).setDinode (i % ipb) d)).dinode sb j =
      update (s.dinode sb) i d j := by
  have hmod : i % ipb < ipb := Nat.mod_lt _ (by decide)
  unfold Fs.dinode
  rw [Fs.write_blocks]
  by_cases hj : j = i
  · subst hj
    rw [update_self, update_self, Block.dinode_setDinode_same _ _ hmod]
  · rw [update_of_ne hj]
    by_cases hblock : sb.iblock j = sb.iblock i
    · rw [hblock, update_self, Block.dinode_setDinode_ne _ _ hmod]
      unfold Superblock.iblock at hblock
      unfold ipb at hblock ⊢
      omega
    · rw [update_of_ne hblock]

/-- `iupdate` stores the record of the inode in memory. -/
theorem iupdate_eq {e : InodeId} (hheld : s.held = []) :
    iupdate sb e s = .ok () (s.write (sb.iblock (s.itable e).inum)
      ((s.blocks (sb.iblock (s.itable e).inum)).setDinode ((s.itable e).inum % ipb)
        (s.itable e).d)) :=
  write_eq (fun b => b.setDinode ((s.itable e).inum % ipb) (s.itable e).d) (by simp [hheld])

/-- Storing a record changes neither slots nor the free map. -/
theorem slotOf_iupdate (h : Owned sb X V blocks) (hi : i < sb.ninodes) (d : Block) (j k : ℕ) :
    slotOf sb V (update blocks (sb.iblock i) d) j k = slotOf sb V blocks j k := by
  refine slotOf_congr rfl (fun hj ht hd => update_of_ne ?_ _ _) k
  have := (h.indirect_used hj ht hd).1
  have := Superblock.iblock_lt_nmeta hi
  omega

/-- A record is written. -/
theorem Owned.iupdate (h : Owned sb X V blocks) (hi : i < sb.ninodes) (d : Block) :
    Owned sb X V (update blocks (sb.iblock i) d) :=
  h.of_slots (slotOf_iupdate h hi d) fun _ hb =>
    usedBit_update hb (.inl (Superblock.iblock_lt_bmapstart hi)) d

/-- Storing a record changes no file contents. -/
theorem dataAt_iupdate (h : Owned sb X V blocks) (hi : i < sb.ninodes) (d : Block) (j k : ℕ) :
    dataAt sb V (update blocks (sb.iblock i) d) j k = dataAt sb V blocks j k := by
  unfold dataAt
  rw [slotOf_iupdate h hi]
  split
  · rfl
  · rename_i hne
    refine update_of_ne ?_ _ _
    have := (h.range j k hne).1
    have := Superblock.iblock_lt_nmeta hi
    omega

end Records

/-! ## Writing a data block -/

section DataBlock

variable {sb : Superblock} {V : ℕ → Dinode} {blocks : ℕ → Block} {i k : ℕ} {d : Block}

section Data

variable (h : Owned sb ∅ V blocks) (hk : k ≠ ndirect) (hne : slotOf sb V blocks i k ≠ 0)

include h hk hne

/-- Writing the block of a slot other than an indirect block keeps all slots. -/
theorem slotOf_data (j l : ℕ) :
    slotOf sb V (update blocks (slotOf sb V blocks i k) d) j l = slotOf sb V blocks j l := by
  refine Owned.slotOf_write (fun i' hi' ht' heq => ?_) j l
  refine absurd (h.inj i k i' ndirect hne ?_).2 hk
  rw [slotOf_indirect hi' ht', heq]

/-- A block of data is written. -/
theorem Owned.data :
    Owned sb ∅ V (update blocks (slotOf sb V blocks i k) d) :=
  h.of_slots (slotOf_data h hk hne) fun _ hb =>
    usedBit_update hb (.inr (h.range i k hne).1) d

/-- Writing the block of a slot changes the contents of that slot only. -/
theorem dataAt_data (j l : ℕ) :
    dataAt sb V (update blocks (slotOf sb V blocks i k) d) j l =
      if j = i ∧ l = k then d else dataAt sb V blocks j l := by
  unfold dataAt
  rw [slotOf_data h hk hne]
  by_cases hjl : j = i ∧ l = k
  · obtain ⟨rfl, rfl⟩ := hjl
    rw [if_neg hne, update_self, if_pos ⟨rfl, rfl⟩]
  · rw [if_neg hjl]
    split
    · rfl
    · rename_i hne'
      refine update_of_ne (fun heq => hjl ?_) _ _
      exact h.inj j l i k hne' heq

end Data

end DataBlock

/-! ## Changing one inode -/

/-- Inode `i`, in memory at `e`, has changed in memory and its record is `d` there; the
record is not stored yet. The other inodes stay. -/
structure Pending (sb : Superblock) (V : ℕ → Dinode) (i : ℕ) (e : InodeId) (s s' : Fs)
    (d : Dinode) : Prop where
  /-- Only the record of the inode in memory changes. -/
  itable : s'.itable = update s.itable e { s.itable e with d := d }
  /-- Block ownership holds with the new record. -/
  owned : Owned sb ∅ (update V i d) s'.blocks
  /-- No buffer is left held. -/
  held : s'.held = s.held
  /-- The inode blocks stay. -/
  low : ∀ b < sb.bmapstart, s'.blocks b = s.blocks b
  /-- The other inodes keep their slots. -/
  slots : ∀ j l, j ≠ i →
    slotOf sb (update V i d) s'.blocks j l = slotOf sb V s.blocks j l
  /-- The other inodes keep their contents. -/
  data : ∀ j l, j ≠ i → l ≠ ndirect →
    dataAt sb (update V i d) s'.blocks j l = dataAt sb V s.blocks j l

/-- What every function does that changes inode `i`, in memory at `e`: the inode record
becomes `d`, in memory and on disk, and the other inodes stay. -/
structure Changed (sb : Superblock) (V : ℕ → Dinode) (i : ℕ) (e : InodeId) (s s' : Fs)
    (d : Dinode) : Prop where
  /-- Only the record of the inode in memory changes. -/
  itable : s'.itable = update s.itable e { s.itable e with d := d }
  /-- The record is stored. -/
  records : ∀ j < sb.ninodes, s'.dinode sb j = update (s.dinode sb) i d j
  /-- Block ownership holds. -/
  owned : Owned sb ∅ (update V i d) s'.blocks
  /-- No buffer is left held. -/
  held : s'.held = s.held
  /-- The other inodes keep their slots. -/
  slots : ∀ j l, j ≠ i →
    slotOf sb (update V i d) s'.blocks j l = slotOf sb V s.blocks j l
  /-- The other inodes keep their contents. -/
  data : ∀ j l, j ≠ i → l ≠ ndirect →
    dataAt sb (update V i d) s'.blocks j l = dataAt sb V s.blocks j l

section Change

variable {sb : Superblock} {V : ℕ → Dinode} {i : ℕ} {e : InodeId} {s s1 : Fs} {d d' : Dinode}
  {blocks : ℕ → Block}

/-- Slots depend on the type and the addresses. -/
theorem slotOf_update_congr (ht : d'.type = d.type) (ha : d'.addrs = d.addrs) (j l : ℕ) :
    slotOf sb (update V i d') blocks j l = slotOf sb (update V i d) blocks j l := by
  unfold slotOf
  by_cases hj : j = i
  · subst hj
    have haddr : ∀ k, d'.addr k = d.addr k := by
      intro k
      unfold Dinode.addr
      rw [ha]
    simp only [update_self, ht]
    unfold Dinode.slot
    simp only [haddr]
  · simp only [update_of_ne hj]

/-- The contents depend on the slots. -/
theorem dataAt_update_congr (ht : d'.type = d.type) (ha : d'.addrs = d.addrs) (j l : ℕ) :
    dataAt sb (update V i d') blocks j l = dataAt sb (update V i d) blocks j l := by
  unfold dataAt
  rw [slotOf_update_congr ht ha]

/-- Change a field of the record in memory other than the type and the addresses. -/
theorem Pending.setD (h : Pending sb V i e s s1 d) (ht : d'.type = d.type)
    (ha : d'.addrs = d.addrs) : Pending sb V i e s (s1.setD e d') d' := by
  refine ⟨?_, ?_, h.held, h.low, ?_, ?_⟩
  · simp [Fs.setD, Fs.setInode, h.itable]
  · exact h.owned.of_slots (slotOf_update_congr ht ha) fun _ _ => rfl
  · intro j l hj
    rw [slotOf_update_congr ht ha]
    exact h.slots j l hj
  · intro j l hj hl
    rw [dataAt_update_congr ht ha]
    exact h.data j l hj hl

/-- Nothing has changed yet. -/
theorem Pending.refl (h : Owned sb ∅ V s.blocks) (hV : V i = (s.itable e).d) :
    Pending sb V i e s s (s.itable e).d := by
  have hself : update V i (s.itable e).d = V := by
    rw [← hV, update_eq_self]
  refine ⟨?_, ?_, rfl, fun _ _ => rfl, ?_, ?_⟩
  · rw [update_eq_self]
  · rw [hself]
    exact h
  · rw [hself]
    exact fun _ _ _ => rfl
  · rw [hself]
    exact fun _ _ _ _ => rfl

/-- `iupdate` stores the record that has changed in memory. -/
theorem Pending.store (h : Pending sb V i e s s1 d) (hi : i < sb.ninodes)
    (hinum : (s.itable e).inum = i) (hheld : s.held = []) :
    ∃ s', iupdate sb e s1 = .ok () s' ∧ s'.unlogged = s1.unlogged ∧ s'.denied = s1.denied ∧
      Changed sb V i e s s' d ∧
      (∀ l, slotOf sb (update V i d) s'.blocks i l =
        slotOf sb (update V i d) s1.blocks i l) ∧
      ∀ l, dataAt sb (update V i d) s'.blocks i l =
        dataAt sb (update V i d) s1.blocks i l := by
  have hd : (s1.itable e).d = d := by
    rw [h.itable, update_self]
  have hnum : (s1.itable e).inum = i := by
    rw [h.itable, update_self, hinum]
  have hslot := fun D => slotOf_iupdate (d := D) h.owned hi
  have hdata := fun D => dataAt_iupdate (d := D) h.owned hi
  refine ⟨_, iupdate_eq (h.held.trans hheld), rfl, rfl, ⟨h.itable, ?_, ?_, h.held, ?_, ?_⟩, ?_, ?_⟩
  · intro j hj
    rw [hnum, hd]
    refine (dinode_write d j).trans ?_
    by_cases hji : j = i
    · rw [hji, update_self, update_self]
    · rw [update_of_ne hji, update_of_ne hji]
      unfold Fs.dinode
      rw [h.low _ (Superblock.iblock_lt_bmapstart hj)]
  · rw [hnum]
    exact h.owned.iupdate hi _
  · intro j l hj
    rw [hnum]
    exact (hslot _ j l).trans (h.slots j l hj)
  · intro j l hj hl
    rw [hnum]
    exact (hdata _ j l).trans (h.data j l hj hl)
  · rw [hnum]
    exact hslot _ i
  · rw [hnum]
    exact hdata _ i

end Change

end RiscvKernel
