import RiscvKernel.Fs.Image

/-!
# The free map as a set

The bits of the free map stand for the set of blocks in use. `balloc` adds its least missing
element and zeroes the block, `bfree` removes an element; the bits behind the last block of the
file system stay as they are. The free map is on the disk that it describes: its own blocks have
to be in the set, or `balloc` would zero a part of the map.
-/

namespace RiscvKernel

open Threads Function

section Restore

variable {sb : Superblock} {s : Fs} {a b : ℕ}

/-- Clearing a bit that was clear before it was set gives the block back. -/
theorem Block.clearBit_markBit (d : Block) {bi : ℕ} (hbi : bi < bpb) (hclear : d.bit bi = false) :
    (d.markBit bi).clearBit bi = d := by
  have hlt : bi / 8 + 1 ≤ bsize := by
    unfold bpb at hbi
    unfold bsize
    omega
  have hbyte : (d.markBit bi).byte (bi / 8) = d.byte (bi / 8) ||| bitMask bi := by
    rw [markBit, byte_blit _ _ hlt, Bytes.blit_inside _ _ le_rfl (by omega)]
  have hback : (d.byte (bi / 8) ||| bitMask bi) &&& ~~~ bitMask bi = d.byte (bi / 8) := by
    apply UInt8.toBitVec_inj.1
    apply BitVec.eq_of_getLsbD_eq
    intro j hj
    by_cases hji : j = bi % 8
    · have hbit : (d.byte (bi / 8)).toBitVec.getLsbD j = false := by rw [hji]; exact hclear
      simp [bitMask, hji, ← hbit]
    · simp [bitMask, hj, hji]
  apply ext_byte
  intro i hi
  rw [clearBit, byte_blit _ _ hlt]
  by_cases hin : i = bi / 8
  · rw [hin, Bytes.blit_inside _ _ le_rfl (by omega), hbyte, hback]
  · rw [Bytes.blit_outside _ _ (by omega), markBit, byte_blit _ _ hlt,
      Bytes.blit_outside _ _ (by omega)]

/-- `bfree` of a block whose bit is set. -/
theorem bfree_of_used (hused : usedBit sb s.blocks a = true) (hmap : sb.bblock a ∉ s.held) :
    bfree sb a s = .ok () (s.give sb a) := by
  have hbit : (s.blocks (sb.bblock a)).bit (a % bpb) = true := hused
  unfold bfree
  simp [fsRead_eq hmap, hbit, fsLog, fsRelse, Bp.modify, Fs.release, Fs.give, Fs.write]

/-- The map block of a block of the file system, or of a bit behind its end. -/
theorem bblock_mem_map (hb : b / bpb ≤ sb.size / bpb) :
    sb.bmapstart ≤ sb.bblock b ∧ sb.bblock b < sb.nmeta := by
  unfold Superblock.bblock Superblock.nmeta
  generalize b / bpb = q at *
  generalize sb.size / bpb = r at *
  omega

/-- Taking a block outside the map sets its bit and no other, the bits behind the last block
included. -/
theorem usedBit_take_of_map (ha : a < sb.size) (hout : a < sb.bmapstart ∨ sb.nmeta ≤ a)
    (hb : b / bpb ≤ sb.size / bpb) :
    usedBit sb (s.take sb a).blocks b = (decide (b = a) || usedBit sb s.blocks b) := by
  obtain ⟨hge, hlt⟩ := bblock_mem_map hb
  rw [← usedBit_markBit ha]
  unfold usedBit Fs.take
  rw [Fs.write_blocks, update_of_ne (by omega), Fs.write_blocks]

/-- A block taken and given back is zeroed; the map is as before. -/
theorem give_take_blocks (hne : sb.bblock a ≠ a) (hclear : usedBit sb s.blocks a = false) :
    ((s.take sb a).give sb a).blocks = update s.blocks a Block.zero := by
  have hmap : (s.take sb a).blocks (sb.bblock a) =
      (s.blocks (sb.bblock a)).markBit (a % bpb) := by
    unfold Fs.take
    rw [Fs.write_blocks, update_of_ne hne, Fs.write_blocks, update_self]
  unfold Fs.give
  rw [Fs.write_blocks, hmap, Block.clearBit_markBit _ (Nat.mod_lt _ (by decide)) hclear]
  unfold Fs.take
  rw [Fs.write_blocks, Fs.write_blocks, update_comm hne, update_idem,
    update_comm (Ne.symm hne), update_eq_self]

end Restore

/-- The blocks of the free map are in use. -/
def MapUsed (sb : Superblock) (s : Fs) : Prop :=
  ∀ b, sb.bmapstart ≤ b → b < sb.nmeta → usedBit sb s.blocks b = true

/-- The bits below the size of the file system are a set of blocks: `balloc` adds the least block
that is not in it, `bfree` takes one out, and the two are inverse to each other. -/
theorem bitmap_refines_set (sb : Superblock) (s : Fs) (hheld : HeldUsed sb s)
    (hzero : usedBit sb s.blocks 0 = true) (hmap : MapUsed sb s) :
    (∃ r s', balloc sb s = .ok r s' ∧
      (r = 0 ↔ ∀ b < sb.size, usedBit sb s.blocks b = true) ∧
      (r = 0 → s'.blocks = s.blocks) ∧
      (r ≠ 0 →
        (r < sb.size ∧ usedBit sb s.blocks r = false ∧
          ∀ b < r, usedBit sb s.blocks b = true) ∧
        (∀ b, b / bpb ≤ sb.size / bpb →
          usedBit sb s'.blocks b = (decide (b = r) || usedBit sb s.blocks b)) ∧
        s'.blocks r = Block.zero ∧
        (∀ k, k ≠ r → k ≠ sb.bblock r → s'.blocks k = s.blocks k) ∧
        ∃ s'', bfree sb r s' = .ok () s'' ∧
          s''.blocks = update s.blocks r Block.zero)) ∧
      ∀ a < sb.size, usedBit sb s.blocks a = true →
        ∃ s', bfree sb a s = .ok () s' ∧
          (∀ b, usedBit sb s'.blocks b = (!decide (b = a) && usedBit sb s.blocks b)) ∧
          ∀ k ≠ sb.bblock a, s'.blocks k = s.blocks k := by
  constructor
  · have hspec : Ballocs sb s (balloc sb s) := by
      have := ballocFrom_spec (q := 0) hheld (n := (sb.size + bpb - 1) / bpb) (Nat.zero_add _)
        (fun b hb => by omega)
      rwa [Nat.zero_mul] at this
    rcases hspec with ⟨hok, hall⟩ | ⟨a, ha, hclear, hfirst, hok⟩
    · exact ⟨0, _, hok, ⟨fun _ => hall, fun _ => rfl⟩, fun _ => rfl, fun hne => absurd rfl hne⟩
    · have hne : a ≠ 0 := by
        rintro rfl
        rw [hzero] at hclear
        cases hclear
      have hout : a < sb.bmapstart ∨ sb.nmeta ≤ a := by
        by_contra hin
        have := hmap a (by omega) (by omega)
        rw [hclear] at this
        cases this
      have hle : a / bpb ≤ sb.size / bpb := Nat.div_le_div_right ha.le
      have hself : sb.bblock a ≠ a := by
        obtain ⟨hge, hlt⟩ := bblock_mem_map hle
        omega
      have hbits := fun b (hb : b / bpb ≤ sb.size / bpb) =>
        usedBit_take_of_map (s := s) ha hout hb
      refine ⟨a, _, hok, ⟨fun h => absurd h hne, fun hall => ?_⟩, fun h => absurd h hne,
        fun _ => ⟨⟨ha, hclear, hfirst⟩, hbits, take_blocks_self, ?_, _, ?_,
          give_take_blocks hself hclear⟩⟩
      · rw [hall a ha] at hclear
        cases hclear
      · intro k hk hk'
        unfold Fs.take
        rw [Fs.write_blocks, update_of_ne hk, Fs.write_blocks, update_of_ne hk']
      · apply bfree_of_used (s := s.take sb a) _ (hheld.bblock_notMem ha)
        rw [hbits a hle, decide_eq_true rfl, Bool.true_or]
  · intro a ha hused
    refine ⟨_, bfree_of_used hused (hheld.bblock_notMem ha), fun b => usedBit_give, ?_⟩
    intro k hk
    unfold Fs.give
    rw [Fs.write_blocks, update_of_ne hk]

/-- The first `n` blocks are in use in a free map of one block. -/
theorem usedBit_of_mapBlock {s : Fs} {n b : ℕ} (hs : s.blocks 46 = mapBlock n) (hn : n ≤ bpb)
    (hb : b < bpb) : usedBit mkfsSb s.blocks b = decide (b < n) := by
  have hblock : mkfsSb.bblock b = 46 := by
    unfold Superblock.bblock
    rw [Nat.div_eq_of_lt hb]
    rfl
  unfold usedBit
  rw [hblock, hs, bit_mapBlock hn, Nat.mod_eq_of_lt hb]

/-- On the image of `mkfs` the first block taken is the one behind the root directory. -/
theorem bitmap_refines_set_fresh : ∃ s', balloc mkfsSb freshFs = .ok 48 s' := by
  have hbits : ∀ b < bpb, usedBit mkfsSb freshFs.blocks b = decide (b < 48) :=
    fun b hb => usedBit_of_mapBlock rfl (by decide) hb
  obtain ⟨⟨r, s', hok, hnone, -, hsome⟩, -⟩ := bitmap_refines_set mkfsSb freshFs
    (fun b hb => by cases hb) (hbits 0 (by decide))
    (fun b _ hb => by
      have hb' : b < 47 := hb
      rw [hbits b (by unfold bpb; omega)]
      simpa using Nat.lt_succ_of_lt hb')
  have hne : r ≠ 0 := by
    intro hr
    have := hnone.1 hr 48 (by decide)
    rw [hbits 48 (by decide)] at this
    cases this
  obtain ⟨hsize, hclear, hfirst⟩ := (hsome hne).1
  have hsize' : r < 2000 := hsize
  rw [hbits r (by unfold bpb; omega), decide_eq_false_iff_not] at hclear
  have hle : ¬ 48 < r := by
    intro hlt
    have := hfirst 48 hlt
    rw [hbits 48 (by decide)] at this
    cases this
  obtain rfl : r = 48 := by omega
  exact ⟨s', hok⟩

/-- A file system whose free map says that the block of the map is free. -/
def openMapFs : Fs := { freshFs with blocks := update freshBlocks 46 (mapBlock 46) }

/-- `balloc` may take a block of the free map and zero it: the bits of all other blocks are
lost, and its own as well. -/
theorem balloc_zeroes_map :
    openMapFs.held = [] ∧ usedBit mkfsSb openMapFs.blocks 0 = true ∧
      ∃ s', balloc mkfsSb openMapFs = .ok 46 s' ∧
        usedBit mkfsSb openMapFs.blocks 1 = true ∧ usedBit mkfsSb s'.blocks 1 = false ∧
        usedBit mkfsSb s'.blocks 46 = false := by
  have hbits : ∀ b < bpb, usedBit mkfsSb openMapFs.blocks b = decide (b < 46) :=
    fun b hb => usedBit_of_mapBlock rfl (by decide) hb
  refine ⟨rfl, hbits 0 (by decide), openMapFs.take mkfsSb 46, ?_, hbits 1 (by decide), ?_, ?_⟩
  · have hspec : Ballocs mkfsSb openMapFs (balloc mkfsSb openMapFs) :=
      ballocFrom_spec (q := 0) (fun b hb => by cases hb) rfl (fun b hb => by omega)
    rcases hspec with ⟨-, hall⟩ | ⟨a, ha, hclear, hfirst, hok⟩
    · have := hall 46 (by decide)
      rw [hbits 46 (by decide)] at this
      cases this
    · have ha' : a < 2000 := ha
      rw [hbits a (by unfold bpb; omega), decide_eq_false_iff_not] at hclear
      have hle : ¬ 46 < a := by
        intro hlt
        have := hfirst 46 hlt
        rw [hbits 46 (by decide)] at this
        cases this
      obtain rfl : a = 46 := by omega
      exact hok
  · exact (congrArg (Block.bit · 1) take_blocks_self).trans (Block.bit_zero 1)
  · exact (congrArg (Block.bit · 46) take_blocks_self).trans (Block.bit_zero 46)

end RiscvKernel
