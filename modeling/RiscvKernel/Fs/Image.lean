import RiscvKernel.Fs.File

/-!
# The file system that `mkfs` makes

The image that `mkfs` writes when it is given no files: a root directory with the
entries `.` and `..` in the first data block, and a free map in which exactly the
metadata and that block are in use.
-/

namespace RiscvKernel

/-- The superblock of `mkfs`: `FSSIZE` blocks and `NINODES` inodes after 31 log blocks. -/
def mkfsSb : Superblock where
  size := 2000
  ninodes := 200
  inodestart := 33
  bmapstart := 46
  inodes_le := by decide
  bmap_le := by decide
  size_lt := by decide
  root_lt := by decide
  ninodes_le := by decide

/-- The free map with the first `n` blocks in use. -/
def mapBlock (n : ℕ) : Block := (List.range n).foldl Block.markBit Block.zero

/-- The first bits of the map are set. -/
theorem bit_mapBlock {n : ℕ} (hn : n ≤ bpb) (bi : ℕ) : (mapBlock n).bit bi = decide (bi < n) := by
  unfold mapBlock
  induction n with
  | zero => simp
  | succ n ih =>
    rw [List.range_succ, List.foldl_append]
    simp only [List.foldl_cons, List.foldl_nil]
    rw [Block.bit_markBit _ (by omega), ih (by omega)]
    by_cases h : bi = n
    · simp [h]
    · have : bi < n ↔ bi < n + 1 := by omega
      simp [h, this]

/-- The inode of the root directory. -/
def rootDinode : Dinode where
  type := tDir
  major := 0
  minor := 0
  nlink := 1
  size := 1024
  addrs := fun k => if k = 0 then 47 else 0

/-- The entries `.` and `..` of the root directory. -/
def rootBlock : Block :=
  (Block.zero.blit 0 16 (Dirent.mem ⟨rootino, [46]⟩)).blit 16 16 (Dirent.mem ⟨rootino, [46, 46]⟩)

/-- The blocks of the image. -/
def freshBlocks (b : ℕ) : Block :=
  if b = 46 then mapBlock 48
  else if b = 33 then Block.zero.setDinode rootino rootDinode
  else if b = 47 then rootBlock
  else Block.zero

/-- The file system after a restart from the image: no inode is in memory. -/
def freshFs : Fs where
  blocks := freshBlocks
  held := []
  logged := []
  unlogged := []
  denied := 0
  itable := fun _ => ⟨0, 0, false, Dinode.zero⟩

/-- The inode records of the image. -/
theorem freshFs_dinode {i : ℕ} (hi : i < mkfsSb.ninodes) :
    freshFs.dinode mkfsSb i = if i = rootino then rootDinode else Dinode.zero := by
  have hi' : i < 200 := hi
  unfold Fs.dinode freshFs freshBlocks
  dsimp only
  have hblock : mkfsSb.iblock i = i / 16 + 33 := rfl
  rw [hblock, if_neg (by omega)]
  by_cases hlow : i / 16 + 33 = 33
  · rw [if_pos hlow]
    by_cases hroot : i = rootino
    · rw [if_pos hroot, hroot]
      exact Block.dinode_setDinode_same _ _ (by decide)
    · have hmod : i % ipb = i := Nat.mod_eq_of_lt (by unfold ipb; omega)
      rw [if_neg hroot, hmod, Block.dinode_setDinode_ne _ _ (by decide) hroot, Block.dinode_zero]
  · rw [if_neg hlow, if_neg (by omega), Block.dinode_zero, if_neg]
    unfold rootino
    omega

/-- The only slot in use is the first block of the root directory. -/
theorem freshFs_slotOf (i k : ℕ) : slotOf mkfsSb (freshFs.dinode mkfsSb) freshFs.blocks i k =
    if i = rootino ∧ k = 0 then 47 else 0 := by
  unfold slotOf
  by_cases hi : i < mkfsSb.ninodes
  · rw [freshFs_dinode hi]
    by_cases hroot : i = rootino
    · have haddr : ∀ k, rootDinode.addr k = if k = 0 then 47 else 0 := by
        intro k
        unfold Dinode.addr rootDinode
        by_cases hk : k < 13
        · by_cases hk0 : k = 0
          · subst hk0
            rfl
          · have : (⟨k, hk⟩ : Fin 13) ≠ 0 := fun hc => hk0 (congrArg Fin.val hc)
            simp [hk, hk0, this]
        · rw [dif_neg hk, if_neg (by omega)]
      have htype : rootDinode.type ≠ 0 := by decide
      have hind : ndirect ≠ 0 := by decide
      have hroot_lt : rootino < mkfsSb.ninodes := by decide
      simp only [hroot, hroot_lt, if_true, htype, ne_eq, not_false_eq_true, and_self, true_and,
        Dinode.slot, haddr, if_neg hind, true_or]
      by_cases hk : k ≤ ndirect
      · rw [if_pos hk]
      · rw [if_neg hk, if_neg (by omega)]
    · simp [hroot, Dinode.zero]
  · have hroot : i ≠ rootino := fun hc => hi (hc ▸ by decide)
    simp [hi, hroot]

/-- The image satisfies the block ownership invariant. -/
theorem freshFs_owned : Owned mkfsSb ∅ (freshFs.dinode mkfsSb) freshFs.blocks := by
  have hmeta : mkfsSb.nmeta = 47 := by decide
  have hslot : ∀ i k, slotOf mkfsSb (freshFs.dinode mkfsSb) freshFs.blocks i k ≠ 0 →
      i = rootino ∧ k = 0 ∧ slotOf mkfsSb (freshFs.dinode mkfsSb) freshFs.blocks i k = 47 := by
    intro i k
    rw [freshFs_slotOf]
    split
    · rename_i h
      exact fun _ => ⟨h.1, h.2, rfl⟩
    · exact fun h => absurd rfl h
  refine ⟨?_, ?_, ?_, ?_⟩
  · intro i k hne
    rw [(hslot i k hne).2.2, hmeta]
    exact ⟨le_rfl, by decide⟩
  · intro i k j l hne heq
    obtain ⟨h1, h2, -⟩ := hslot i k hne
    obtain ⟨h3, h4, -⟩ := hslot j l (heq ▸ hne)
    exact ⟨h1.trans h3.symm, h2.trans h4.symm⟩
  · intro b hb
    have hb' : b < 2000 := hb
    have hbblock : mkfsSb.bblock b = 46 := by
      unfold Superblock.bblock bpb mkfsSb
      dsimp only
      omega
    have hmod : b % bpb = b := Nat.mod_eq_of_lt (by unfold bpb; omega)
    have hbits : freshFs.blocks 46 = mapBlock 48 := rfl
    unfold usedBit
    rw [hbblock, hmod, hbits, bit_mapBlock (by decide), decide_eq_true_eq, hmeta]
    constructor
    · intro hlt
      rcases Nat.lt_or_ge b 47 with h | h
      · exact .inl h
      · refine .inr (.inr ⟨rootino, 0, ?_⟩)
        rw [freshFs_slotOf, if_pos ⟨rfl, rfl⟩]
        omega
    · rintro (h | h | ⟨i, k, h⟩)
      · omega
      · exact h.elim
      · rw [freshFs_slotOf] at h
        split at h <;> omega
  · intro b hb
    exact hb.elim

/-- The root directory of the image has no holes. -/
theorem freshFs_solid : Solid mkfsSb (freshFs.dinode mkfsSb) freshFs.blocks rootino := by
  have hsize : (freshFs.dinode mkfsSb rootino).size.toNat = 1024 := by
    rw [freshFs_dinode (by decide), if_pos rfl]
    rfl
  refine ⟨by rw [hsize]; decide, fun bn hbn => ?_⟩
  rw [hsize] at hbn
  have : bn = 0 := by
    unfold bsize at hbn
    omega
  subst this
  rw [freshFs_slotOf, if_pos ⟨rfl, rfl⟩]
  decide

end RiscvKernel
