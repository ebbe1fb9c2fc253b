import RiscvKernel.Fs.Blocks
import Mathlib.Data.Set.Insert

/-!
# Block ownership

Every data block is referenced by at most one slot: a direct address, the address of an
indirect block, or an entry of it. The free map marks the metadata, the referenced
blocks, and the blocks of a set `X` that are taken but not yet, or no longer, referenced.
The inode records are given by a map `V`, so that the same facts apply to the records
on disk and to an inode that is being changed in memory.
-/

namespace RiscvKernel

open Function

/-- The number of slots of an inode. -/
def nslots : ℕ := ndirect + 1 + nindirect

/-- Slot `k` of an inode record: a direct address, the indirect block, an entry of it. -/
def Dinode.slot (d : Dinode) (blocks : ℕ → Block) (k : ℕ) : ℕ :=
  if k ≤ ndirect then d.addr k
  else if d.addr ndirect = 0 ∨ nslots ≤ k then 0
  else (blocks (d.addr ndirect)).entry (k - (ndirect + 1))

/-- Slot `k` of inode `i`; an inode that is free or out of range has none. -/
def slotOf (sb : Superblock) (V : ℕ → Dinode) (blocks : ℕ → Block) (i k : ℕ) : ℕ :=
  if i < sb.ninodes ∧ (V i).type ≠ 0 then (V i).slot blocks k else 0

/-- The block ownership invariant, with the blocks `X` taken but not referenced. -/
structure Owned (sb : Superblock) (X : Set ℕ) (V : ℕ → Dinode) (blocks : ℕ → Block) : Prop where
  /-- Slots refer to data blocks. -/
  range : ∀ i k, slotOf sb V blocks i k ≠ 0 →
    sb.nmeta ≤ slotOf sb V blocks i k ∧ slotOf sb V blocks i k < sb.size
  /-- No block is referenced twice. -/
  inj : ∀ i k j l, slotOf sb V blocks i k ≠ 0 → slotOf sb V blocks i k = slotOf sb V blocks j l →
    i = j ∧ k = l
  /-- Exactly the metadata, the referenced blocks and `X` are marked in use. -/
  bitmap : ∀ b < sb.size, usedBit sb blocks b = true ↔
    b < sb.nmeta ∨ b ∈ X ∨ ∃ i k, slotOf sb V blocks i k = b
  /-- The blocks of `X` are data blocks that no slot refers to. -/
  extra : ∀ b ∈ X, sb.nmeta ≤ b ∧ b < sb.size ∧ ∀ i k, slotOf sb V blocks i k ≠ b

section Slots

variable {sb : Superblock} {V V' : ℕ → Dinode} {blocks blocks' : ℕ → Block} {i : ℕ}

theorem nmeta_pos (sb : Superblock) : 0 < sb.nmeta := Nat.succ_pos _

/-- A slot depends on the inode record and on the indirect block. -/
theorem Dinode.slot_congr {d : Dinode} (h : d.addr ndirect ≠ 0 →
    blocks' (d.addr ndirect) = blocks (d.addr ndirect)) (k : ℕ) :
    d.slot blocks' k = d.slot blocks k := by
  unfold Dinode.slot
  split
  · rfl
  · split
    · rfl
    · rename_i hk
      rw [h fun hz => hk (Or.inl hz)]

/-- The slots of an allocated inode. -/
theorem slotOf_alloc (hi : i < sb.ninodes) (ht : (V i).type ≠ 0) (k : ℕ) :
    slotOf sb V blocks i k = (V i).slot blocks k := if_pos ⟨hi, ht⟩

/-- The address of the indirect block is a slot. -/
theorem slotOf_indirect (hi : i < sb.ninodes) (ht : (V i).type ≠ 0) :
    slotOf sb V blocks i ndirect = (V i).addr ndirect := by
  rw [slotOf_alloc hi ht, Dinode.slot, if_pos le_rfl]

/-- Slots stay if the records and the indirect blocks do. -/
theorem slotOf_congr (hV : V' i = V i)
    (h : i < sb.ninodes → (V i).type ≠ 0 → (V i).addr ndirect ≠ 0 →
      blocks' ((V i).addr ndirect) = blocks ((V i).addr ndirect)) (k : ℕ) :
    slotOf sb V' blocks' i k = slotOf sb V blocks i k := by
  unfold slotOf
  rw [hV]
  split
  · rename_i hi
    exact Dinode.slot_congr (h hi.1 hi.2) k
  · rfl

end Slots

namespace Owned

variable {sb : Superblock} {X X' : Set ℕ} {V V' : ℕ → Dinode} {blocks blocks' : ℕ → Block}
  {s : Fs} {a i k : ℕ}

/-- The slots stay, while the free map and the blocks without owner change together. -/
theorem change (h : Owned sb X V blocks)
    (hslots : ∀ i k, slotOf sb V' blocks' i k = slotOf sb V blocks i k)
    (hbitmap : ∀ b < sb.size, usedBit sb blocks' b = true ↔
      b < sb.nmeta ∨ b ∈ X' ∨ ∃ i k, slotOf sb V blocks i k = b)
    (hextra : ∀ b ∈ X', sb.nmeta ≤ b ∧ b < sb.size ∧ ∀ i k, slotOf sb V blocks i k ≠ b) :
    Owned sb X' V' blocks' := by
  constructor <;> simp only [hslots]
  · exact h.range
  · exact h.inj
  · exact hbitmap
  · exact hextra

/-- The invariant depends on the slots and on the free map. -/
theorem of_slots (h : Owned sb X V blocks)
    (hslots : ∀ i k, slotOf sb V' blocks' i k = slotOf sb V blocks i k)
    (hbits : ∀ b < sb.size, usedBit sb blocks' b = usedBit sb blocks b) :
    Owned sb X V' blocks' := by
  refine h.change hslots (fun b hb => ?_) h.extra
  rw [hbits b hb]
  exact h.bitmap b hb

/-- The indirect block of an allocated inode is a data block in use. -/
theorem indirect_used (h : Owned sb X V blocks) (hi : i < sb.ninodes) (ht : (V i).type ≠ 0)
    (hd : (V i).addr ndirect ≠ 0) :
    sb.nmeta ≤ (V i).addr ndirect ∧ (V i).addr ndirect < sb.size ∧
      usedBit sb blocks ((V i).addr ndirect) = true := by
  rw [← @slotOf_indirect sb V blocks i hi ht] at hd ⊢
  obtain ⟨h1, h2⟩ := h.range i ndirect hd
  exact ⟨h1, h2, (h.bitmap _ h2).mpr (.inr (.inr ⟨i, ndirect, rfl⟩))⟩

/-- Writing a block that is neither in the free map nor an indirect block keeps the slots. -/
theorem slotOf_write {b : ℕ} {d : Block}
    (hind : ∀ i < sb.ninodes, (V i).type ≠ 0 → (V i).addr ndirect = b → b = 0) (i k : ℕ) :
    slotOf sb V (update blocks b d) i k = slotOf sb V blocks i k := by
  refine slotOf_congr rfl (fun hi ht hd => ?_) k
  refine update_of_ne (fun hb => hd ?_) _ _
  rw [hb]
  exact hind i hi ht hb

end Owned

/-! ## Taking and giving blocks -/

section Bits

variable {sb : Superblock} {blocks : ℕ → Block} {s : Fs} {a b : ℕ}

/-- Writing a data block leaves the free map alone. -/
theorem usedBit_update (hb : b < sb.size) (ha : a < sb.bmapstart ∨ sb.nmeta ≤ a) (d : Block) :
    usedBit sb (update blocks a d) b = usedBit sb blocks b := by
  have hlt := Superblock.bblock_lt_nmeta hb
  have hge : sb.bmapstart ≤ sb.bblock b := Nat.le_add_left _ _
  unfold usedBit
  rw [update_of_ne (by omega)]

/-- `balloc` sets one bit. -/
theorem usedBit_markBit (ha : a < sb.size) :
    usedBit sb (update blocks (sb.bblock a)
      ((blocks (sb.bblock a)).markBit (a % bpb))) b = (decide (b = a) || usedBit sb blocks b) := by
  have hmod : a % bpb < bpb := Nat.mod_lt _ (by decide)
  unfold usedBit
  by_cases hblock : sb.bblock b = sb.bblock a
  · have hiff : b % bpb = a % bpb ↔ b = a := by
      unfold Superblock.bblock at hblock
      unfold bpb at hblock ⊢
      omega
    rw [hblock, update_self, Block.bit_markBit _ hmod]
    simp only [hiff]
  · have hne : b ≠ a := by
      rintro rfl
      exact hblock rfl
    rw [update_of_ne hblock]
    simp [hne]

/-- `bfree` clears one bit. -/
theorem usedBit_clearBit :
    usedBit sb (update blocks (sb.bblock a)
      ((blocks (sb.bblock a)).clearBit (a % bpb))) b =
        (!decide (b = a) && usedBit sb blocks b) := by
  have hmod : a % bpb < bpb := Nat.mod_lt _ (by decide)
  unfold usedBit
  by_cases hblock : sb.bblock b = sb.bblock a
  · have hiff : b % bpb = a % bpb ↔ b = a := by
      unfold Superblock.bblock at hblock
      unfold bpb at hblock ⊢
      omega
    rw [hblock, update_self, Block.bit_clearBit _ hmod]
    simp only [hiff]
  · have hne : b ≠ a := by
      rintro rfl
      exact hblock rfl
    rw [update_of_ne hblock]
    simp [hne]

/-- `balloc` marks the block it takes. -/
theorem usedBit_take (hb : b < sb.size) (ha : a < sb.size) (hdata : sb.nmeta ≤ a) :
    usedBit sb (s.take sb a).blocks b = (decide (b = a) || usedBit sb s.blocks b) := by
  unfold Fs.take
  rw [Fs.write_blocks, usedBit_update hb (Or.inr hdata), Fs.write_blocks, usedBit_markBit ha]

/-- The other blocks stay. -/
theorem take_blocks {c : ℕ} (ha : a < sb.size) (hc : c ≠ a)
    (hmap : c < sb.bmapstart ∨ sb.nmeta ≤ c) : (s.take sb a).blocks c = s.blocks c := by
  have hlt := Superblock.bblock_lt_nmeta ha
  have hge : sb.bmapstart ≤ sb.bblock a := Nat.le_add_left _ _
  unfold Fs.take
  rw [Fs.write_blocks, update_of_ne hc, Fs.write_blocks, update_of_ne (by omega)]

/-- The block taken is zeroed. -/
theorem take_blocks_self : (s.take sb a).blocks a = Block.zero := by
  unfold Fs.take
  rw [Fs.write_blocks, update_self]

/-- The free map after `bfree`. -/
theorem usedBit_give : usedBit sb (s.give sb a).blocks b =
    (!decide (b = a) && usedBit sb s.blocks b) := by
  unfold Fs.give
  rw [Fs.write_blocks, usedBit_clearBit]

/-- `bfree` leaves everything but the free map alone. -/
theorem give_blocks {c : ℕ} (ha : a < sb.size) (hmap : c < sb.bmapstart ∨ sb.nmeta ≤ c) :
    (s.give sb a).blocks c = s.blocks c := by
  have hlt := Superblock.bblock_lt_nmeta ha
  have hge : sb.bmapstart ≤ sb.bblock a := Nat.le_add_left _ _
  unfold Fs.give
  rw [Fs.write_blocks, update_of_ne (by omega)]

end Bits

namespace Owned

variable {sb : Superblock} {X : Set ℕ} {V V' : ℕ → Dinode} {blocks blocks' : ℕ → Block}
  {s : Fs} {a i k : ℕ}

/-- Slots do not change when a free block is taken. -/
theorem slotOf_take (h : Owned sb X V s.blocks) (ha : a < sb.size)
    (hfree : usedBit sb s.blocks a = false) (i k : ℕ) :
    slotOf sb V (s.take sb a).blocks i k = slotOf sb V s.blocks i k := by
  refine slotOf_congr rfl (fun hi ht hd => ?_) k
  obtain ⟨h1, -, hused⟩ := h.indirect_used hi ht hd
  refine take_blocks ha (fun heq => ?_) (.inr h1)
  rw [heq, hfree] at hused
  cases hused

/-- A free block is a data block that nothing refers to. -/
theorem free_block (h : Owned sb X V blocks) (ha : a < sb.size)
    (hfree : usedBit sb blocks a = false) :
    sb.nmeta ≤ a ∧ a ∉ X ∧ ∀ i k, slotOf sb V blocks i k ≠ a := by
  have hnot : ¬ (a < sb.nmeta ∨ a ∈ X ∨ ∃ i k, slotOf sb V blocks i k = a) := by
    rw [← h.bitmap a ha, hfree]
    exact Bool.false_ne_true
  push Not at hnot
  exact hnot

/-- `balloc` takes a block that nothing refers to yet. -/
theorem take (h : Owned sb X V s.blocks) (ha : a < sb.size)
    (hfree : usedBit sb s.blocks a = false) : Owned sb (insert a X) V (s.take sb a).blocks := by
  obtain ⟨hdata, hX, hslot⟩ := h.free_block ha hfree
  refine h.change (h.slotOf_take ha hfree) (fun b hb => ?_) fun b hb => ?_
  · rw [usedBit_take hb ha hdata, Bool.or_eq_true, h.bitmap b hb, decide_eq_true_eq,
      Set.mem_insert_iff]
    constructor
    · rintro (h1 | h2 | h3 | h4)
      · exact .inr (.inl (.inl h1))
      · exact .inl h2
      · exact .inr (.inl (.inr h3))
      · exact .inr (.inr h4)
    · rintro (h1 | (h2 | h3) | h4)
      · exact .inr (.inl h1)
      · exact .inl h2
      · exact .inr (.inr (.inl h3))
      · exact .inr (.inr (.inr h4))
  · rcases Set.mem_insert_iff.mp hb with rfl | hb
    · exact ⟨hdata, ha, hslot⟩
    · exact h.extra b hb

/-- `bfree` releases a block that nothing refers to any more. -/
theorem give (h : Owned sb X V s.blocks) (ha : a ∈ X) :
    Owned sb (X \ {a}) V (s.give sb a).blocks := by
  obtain ⟨hdata, hsize, hslot⟩ := h.extra a ha
  have hslots : ∀ i k, slotOf sb V (s.give sb a).blocks i k = slotOf sb V s.blocks i k := by
    intro i k
    refine slotOf_congr rfl (fun hi ht hd => ?_) k
    exact give_blocks hsize (.inr (h.indirect_used hi ht hd).1)
  refine h.change hslots (fun b hb => ?_) fun b hb => ?_
  · rw [usedBit_give, Bool.and_eq_true, h.bitmap b hb, Bool.not_eq_true', decide_eq_false_iff_not,
      Set.mem_sdiff, Set.mem_singleton_iff]
    constructor
    · rintro ⟨hne, h1 | h2 | h3⟩
      · exact .inl h1
      · exact .inr (.inl ⟨h2, hne⟩)
      · exact .inr (.inr h3)
    · rintro (h1 | ⟨h2, hne⟩ | ⟨i, k, h3⟩)
      · exact ⟨by omega, .inl h1⟩
      · exact ⟨hne, .inr (.inl h2)⟩
      · refine ⟨?_, .inr (.inr ⟨i, k, h3⟩)⟩
        rintro rfl
        exact hslot i k h3
  · exact h.extra b hb.1

/-- A free slot comes to refer to a block of `X`. -/
theorem attach (h : Owned sb X V blocks) (ha : a ∈ X) (hzero : slotOf sb V blocks i k = 0)
    (hnew : slotOf sb V' blocks' i k = a)
    (hslots : ∀ j l, ¬ (j = i ∧ l = k) → slotOf sb V' blocks' j l = slotOf sb V blocks j l)
    (hbits : ∀ b < sb.size, usedBit sb blocks' b = usedBit sb blocks b) :
    Owned sb (X \ {a}) V' blocks' := by
  obtain ⟨hdata, hsize, hunused⟩ := h.extra a ha
  have hcases : ∀ j l, (j = i ∧ l = k ∧ slotOf sb V' blocks' j l = a) ∨
      (¬ (j = i ∧ l = k) ∧ slotOf sb V' blocks' j l = slotOf sb V blocks j l) := by
    intro j l
    by_cases hjl : j = i ∧ l = k
    · exact .inl ⟨hjl.1, hjl.2, by rw [hjl.1, hjl.2, hnew]⟩
    · exact .inr ⟨hjl, hslots j l hjl⟩
  refine ⟨?_, ?_, ?_, ?_⟩
  · intro j l hne
    rcases hcases j l with ⟨-, -, heq⟩ | ⟨-, heq⟩
    · rw [heq]
      exact ⟨hdata, hsize⟩
    · rw [heq] at hne ⊢
      exact h.range j l hne
  · intro j l j' l' hne heq
    rcases hcases j l with ⟨h1, h2, h3⟩ | ⟨-, h3⟩ <;>
      rcases hcases j' l' with ⟨h1', h2', h3'⟩ | ⟨-, h3'⟩
    · exact ⟨h1.trans h1'.symm, h2.trans h2'.symm⟩
    · rw [h3, h3'] at heq
      exact absurd heq.symm (hunused j' l')
    · rw [h3, h3'] at heq
      exact absurd heq (hunused j l)
    · rw [h3] at hne heq
      rw [h3'] at heq
      exact h.inj j l j' l' hne heq
  · intro b hb
    rw [hbits b hb, h.bitmap b hb, Set.mem_sdiff, Set.mem_singleton_iff]
    constructor
    · rintro (h1 | h2 | ⟨j, l, h3⟩)
      · exact .inl h1
      · by_cases hba : b = a
        · exact .inr (.inr ⟨i, k, hnew.trans hba.symm⟩)
        · exact .inr (.inl ⟨h2, hba⟩)
      · rcases hcases j l with ⟨rfl, rfl, -⟩ | ⟨-, heq⟩
        · rw [hzero] at h3
          exact .inl (h3 ▸ nmeta_pos sb)
        · exact .inr (.inr ⟨j, l, heq.trans h3⟩)
    · rintro (h1 | ⟨h2, -⟩ | ⟨j, l, h3⟩)
      · exact .inl h1
      · exact .inr (.inl h2)
      · rcases hcases j l with ⟨-, -, heq⟩ | ⟨-, heq⟩
        · rw [heq] at h3
          exact .inr (.inl (h3 ▸ ha))
        · exact .inr (.inr ⟨j, l, heq.symm.trans h3⟩)
  · intro b hb
    obtain ⟨h1, h2, h3⟩ := h.extra b hb.1
    refine ⟨h1, h2, fun j l => ?_⟩
    rcases hcases j l with ⟨-, -, heq⟩ | ⟨-, heq⟩
    · rw [heq]
      exact fun hab => hb.2 hab.symm
    · rw [heq]
      exact h3 j l

/-- All slots of an inode are given up at once: its blocks move to `X`. -/
theorem detach (h : Owned sb ∅ V blocks) (hzero : ∀ k, slotOf sb V' blocks i k = 0)
    (hslots : ∀ j, j ≠ i → ∀ k, slotOf sb V' blocks j k = slotOf sb V blocks j k) :
    Owned sb {b | b ≠ 0 ∧ ∃ k, slotOf sb V blocks i k = b} V' blocks := by
  have hcases : ∀ j k, slotOf sb V' blocks j k ≠ 0 →
      j ≠ i ∧ slotOf sb V' blocks j k = slotOf sb V blocks j k := by
    intro j k hne
    have hj : j ≠ i := by
      rintro rfl
      exact hne (hzero k)
    exact ⟨hj, hslots j hj k⟩
  refine ⟨?_, ?_, ?_, ?_⟩
  · intro j k hne
    obtain ⟨-, heq⟩ := hcases j k hne
    rw [heq] at hne ⊢
    exact h.range j k hne
  · intro j k j' k' hne heq
    obtain ⟨-, h1⟩ := hcases j k hne
    obtain ⟨-, h2⟩ := hcases j' k' (heq ▸ hne)
    rw [h1] at hne heq
    rw [h2] at heq
    exact h.inj j k j' k' hne heq
  · intro b hb
    rw [h.bitmap b hb]
    constructor
    · rintro (h1 | h2 | ⟨j, k, h3⟩)
      · exact .inl h1
      · exact h2.elim
      · rcases Nat.lt_or_ge b sb.nmeta with hlt | hge
        · exact .inl hlt
        · by_cases hj : j = i
          · subst hj
            have hpos := nmeta_pos sb
            exact .inr (.inl ⟨by omega, k, h3⟩)
          · exact .inr (.inr ⟨j, k, (hslots j hj k).trans h3⟩)
    · rintro (h1 | ⟨-, k, h2⟩ | ⟨j, k, h3⟩)
      · exact .inl h1
      · exact .inr (.inr ⟨i, k, h2⟩)
      · by_cases hj : j = i
        · rw [hj, hzero] at h3
          exact .inl (h3 ▸ nmeta_pos sb)
        · exact .inr (.inr ⟨j, k, (hslots j hj k).symm.trans h3⟩)
  · rintro b ⟨hne, k, rfl⟩
    obtain ⟨h1, h2⟩ := h.range i k hne
    refine ⟨h1, h2, fun j l heq => ?_⟩
    obtain ⟨hj, h3⟩ := hcases j l (heq ▸ hne)
    rw [h3] at heq
    exact hj (h.inj i k j l hne heq.symm).1.symm

end Owned

end RiscvKernel
