import RiscvKernel.Block

/-!
# On-disk layout

The structures of `fs.h`: the superblock, the bits of the free map, the inode record
and the indirect block, each read from and written to a disk block. Every accessor
comes with the fact that it reads back what was written and leaves the rest alone.
-/

namespace RiscvKernel

open Bytes (leByte le_congr le_leByte num)

/-- `NDIRECT`, the direct block addresses of an inode. -/
def ndirect : ℕ := 12

/-- `NINDIRECT`, the entries of an indirect block. -/
def nindirect : ℕ := 256

/-- `MAXFILE`, the most blocks of a file. -/
def maxfile : ℕ := ndirect + nindirect

/-- `IPB`, the inodes per block. -/
def ipb : ℕ := 16

/-- `BPB`, the bits of the free map per block. -/
def bpb : ℕ := 8192

/-- `ROOTINO`, the inode number of the root directory. -/
def rootino : ℕ := 1

/-- `struct superblock`: the fields that `fs.c` reads, laid out as `mkfs` does, with the
inode blocks before the free map and the free map before the data blocks. -/
structure Superblock where
  /-- Size of the file system in blocks. -/
  size : ℕ
  /-- Number of inodes. -/
  ninodes : ℕ
  /-- First inode block. -/
  inodestart : ℕ
  /-- First block of the free map. -/
  bmapstart : ℕ
  /-- The inode blocks end before the free map. -/
  inodes_le : inodestart + ninodes / ipb + 1 ≤ bmapstart
  /-- The free map ends inside the file system. -/
  bmap_le : bmapstart + size / bpb + 1 ≤ size
  /-- Block numbers fit a positive `int`. -/
  size_lt : size < 2 ^ 31
  /-- There is a root inode. -/
  root_lt : rootino < ninodes
  /-- Inode numbers fit the `inum` of a directory entry. -/
  ninodes_le : ninodes ≤ 2 ^ 16

namespace Superblock

variable (sb : Superblock)

/-- `IBLOCK`, the block that holds inode `i`. -/
def iblock (i : ℕ) : ℕ := i / ipb + sb.inodestart

/-- `BBLOCK`, the block of the free map that holds the bit of block `b`. -/
def bblock (b : ℕ) : ℕ := b / bpb + sb.bmapstart

/-- The first data block. -/
def nmeta : ℕ := sb.bmapstart + sb.size / bpb + 1

variable {sb}

theorem nmeta_le : sb.nmeta ≤ sb.size := sb.bmap_le

theorem bblock_lt_nmeta {b : ℕ} (hb : b < sb.size) : sb.bblock b < sb.nmeta := by
  have := Nat.div_le_div_right (c := bpb) hb.le
  unfold bblock nmeta
  omega

theorem iblock_lt_bmapstart {i : ℕ} (hi : i < sb.ninodes) : sb.iblock i < sb.bmapstart := by
  have := Nat.div_le_div_right (c := ipb) hi.le
  have := sb.inodes_le
  unfold iblock
  omega

theorem bmapstart_lt_nmeta : sb.bmapstart < sb.nmeta := by
  unfold nmeta
  generalize sb.size / bpb = q
  omega

theorem iblock_lt_nmeta {i : ℕ} (hi : i < sb.ninodes) : sb.iblock i < sb.nmeta := by
  exact (iblock_lt_bmapstart hi).trans bmapstart_lt_nmeta

end Superblock

/-! ## The free map -/

/-- `1 << (bi % 8)`. -/
def bitMask (bi : ℕ) : UInt8 := ⟨BitVec.twoPow 8 (bi % 8)⟩

namespace Block

/-- Bit `bi` of a block of the free map. -/
def bit (b : Block) (bi : ℕ) : Bool := (b.byte (bi / 8)).toBitVec.getLsbD (bi % 8)

/-- `data[bi/8] |= 1 << (bi % 8)`. -/
def markBit (b : Block) (bi : ℕ) : Block :=
  b.blit (bi / 8) 1 fun _ => b.byte (bi / 8) ||| bitMask bi

/-- `data[bi/8] &= ~(1 << (bi % 8))`. -/
def clearBit (b : Block) (bi : ℕ) : Block :=
  b.blit (bi / 8) 1 fun _ => b.byte (bi / 8) &&& ~~~ bitMask bi

@[simp] theorem bit_zero (bi : ℕ) : zero.bit bi = false := by simp [bit]

/-- Changing one byte of the free map. -/
theorem bit_blit_one (b : Block) {k bi : ℕ} (x : UInt8) (hk : k < bsize) :
    (b.blit k 1 fun _ => x).bit bi =
      if bi / 8 = k then x.toBitVec.getLsbD (bi % 8) else b.bit bi := by
  unfold bit
  rw [byte_blit b _ (by omega)]
  by_cases h : bi / 8 = k
  · rw [if_pos h, Bytes.blit_inside _ _ (by omega) (by omega)]
  · rw [if_neg h, Bytes.blit_outside _ _ (by omega)]

/-- One bit is set. -/
theorem bit_markBit (b : Block) {bi bj : ℕ} (hi : bi < bpb) :
    (b.markBit bi).bit bj = (decide (bj = bi) || b.bit bj) := by
  have hlt : bi / 8 < bsize := by
    unfold bpb at hi
    unfold bsize
    omega
  unfold markBit
  rw [bit_blit_one b _ hlt]
  by_cases h : bj / 8 = bi / 8
  · have hiff : bj = bi ↔ bj % 8 = bi % 8 := by omega
    have h8 : bj % 8 < 8 := Nat.mod_lt _ (by decide)
    rw [if_pos h, ← h]
    simp [bit, bitMask, hiff, h8, Bool.or_comm]
  · have hne : bj ≠ bi := by
      rintro rfl
      exact h rfl
    rw [if_neg h]
    simp [hne]

/-- One bit is cleared. -/
theorem bit_clearBit (b : Block) {bi bj : ℕ} (hi : bi < bpb) :
    (b.clearBit bi).bit bj = (!decide (bj = bi) && b.bit bj) := by
  have hlt : bi / 8 < bsize := by
    unfold bpb at hi
    unfold bsize
    omega
  unfold clearBit
  rw [bit_blit_one b _ hlt]
  by_cases h : bj / 8 = bi / 8
  · have hiff : bj = bi ↔ bj % 8 = bi % 8 := by omega
    have h8 : bj % 8 < 8 := Nat.mod_lt _ (by decide)
    rw [if_pos h, ← h]
    simp [bit, bitMask, hiff, h8, Bool.and_comm]
  · have hne : bj ≠ bi := by
      rintro rfl
      exact h rfl
    rw [if_neg h]
    simp [hne]

/-! ## Indirect blocks -/

/-- Entry `j` of an indirect block. -/
def entry (b : Block) (j : ℕ) : ℕ := b.num (4 * j) 4

/-- Store entry `j` of an indirect block. -/
def setEntry (b : Block) (j a : ℕ) : Block := b.put (4 * j) 4 a

@[simp] theorem entry_zero (j : ℕ) : zero.entry j = 0 := num_zero _ _

/-- One entry changes. -/
theorem entry_setEntry (b : Block) {j k a : ℕ} (hj : j < nindirect) (ha : a < 2 ^ 32) :
    (b.setEntry j a).entry k = if k = j then a else b.entry k := by
  have hle : 4 * j + 4 ≤ bsize := by
    unfold nindirect at hj
    unfold bsize
    omega
  unfold entry setEntry
  by_cases h : k = j
  · rw [if_pos h, h, num_put_same b a hle, Nat.mod_eq_of_lt (by omega)]
  · rw [if_neg h, num_put_disjoint b a hle (by omega)]

end Block

/-! ## Inodes -/

/-- `struct dinode`, and the same fields of `struct inode`. -/
@[ext]
structure Dinode where
  /-- File type. -/
  type : BitVec 16
  /-- Major device number. -/
  major : BitVec 16
  /-- Minor device number. -/
  minor : BitVec 16
  /-- Number of links to the inode. -/
  nlink : BitVec 16
  /-- Size of the file in bytes. -/
  size : BitVec 32
  /-- Data block addresses; the last is the indirect block. -/
  addrs : Fin 13 → BitVec 32

/-- `T_DIR`. -/
def tDir : BitVec 16 := 1

/-- `T_FILE`. -/
def tFile : BitVec 16 := 2

/-- `T_DEVICE`. -/
def tDevice : BitVec 16 := 3

namespace Dinode

/-- The inode record of zeros. -/
def zero : Dinode := ⟨0, 0, 0, 0, 0, fun _ => 0⟩

/-- `addrs[k]` as a block number. -/
def addr (d : Dinode) (k : ℕ) : ℕ := if h : k < 13 then (d.addrs ⟨k, h⟩).toNat else 0

/-- `addrs[k] = a`. -/
def setAddr (d : Dinode) (k a : ℕ) : Dinode :=
  if h : k < 13 then { d with addrs := Function.update d.addrs ⟨k, h⟩ (BitVec.ofNat 32 a) } else d

/-- One address changes. -/
theorem addr_setAddr (d : Dinode) {j k a : ℕ} (hk : k < 13) (ha : a < 2 ^ 32) :
    (d.setAddr k a).addr j = if j = k then a else d.addr j := by
  unfold setAddr addr
  rw [dif_pos hk]
  by_cases hj : j < 13
  · by_cases hjk : j = k
    · subst hjk
      simpa [hj] using ha
    · simp [hj, hjk]
  · have hjk : j ≠ k := by omega
    simp [hj, hjk]

@[simp] theorem type_setAddr (d : Dinode) (k a : ℕ) : (d.setAddr k a).type = d.type := by
  unfold setAddr
  split <;> rfl

@[simp] theorem addr_zero (k : ℕ) : zero.addr k = 0 := by
  simp [addr, zero]

end Dinode

namespace Block

/-- The inode record at index `k` of an inode block. -/
def dinode (b : Block) (k : ℕ) : Dinode where
  type := BitVec.ofNat 16 (b.num (64 * k) 2)
  major := BitVec.ofNat 16 (b.num (64 * k + 2) 2)
  minor := BitVec.ofNat 16 (b.num (64 * k + 4) 2)
  nlink := BitVec.ofNat 16 (b.num (64 * k + 6) 2)
  size := BitVec.ofNat 32 (b.num (64 * k + 8) 4)
  addrs := fun j => BitVec.ofNat 32 (b.num (64 * k + 12 + 4 * j) 4)

/-- A zeroed block holds free inodes. -/
@[simp] theorem dinode_zero (k : ℕ) : zero.dinode k = Dinode.zero := by
  ext1 <;> simp [dinode, Dinode.zero]

/-- The byte `j` of an inode record. -/
def dinodeByte (d : Dinode) (j : ℕ) : UInt8 :=
  if j < 2 then leByte d.type.toNat j
  else if j < 4 then leByte d.major.toNat (j - 2)
  else if j < 6 then leByte d.minor.toNat (j - 4)
  else if j < 8 then leByte d.nlink.toNat (j - 6)
  else if j < 12 then leByte d.size.toNat (j - 8)
  else leByte (d.addr ((j - 12) / 4)) ((j - 12) % 4)

/-- Store an inode record at index `k` of an inode block. -/
def setDinode (b : Block) (k : ℕ) (d : Dinode) : Block := b.blit (64 * k) 64 (dinodeByte d)

/-- A number inside a record just stored. -/
theorem num_setDinode (b : Block) (off : ℕ) {k w v : ℕ} {d : Dinode} (hk : k < ipb)
    (hw : off + w ≤ 64) (h : ∀ j < w, dinodeByte d (off + j) = leByte v j) :
    (b.setDinode k d).num (64 * k + off) w = v % 256 ^ w := by
  have hle : 64 * k + 64 ≤ bsize := by
    unfold ipb at hk
    unfold bsize
    omega
  unfold setDinode num
  rw [byte_blit b _ hle, Bytes.num_blit_inside _ _ (by omega) (by omega), Nat.add_sub_cancel_left,
    ← le_leByte]
  exact le_congr h

/-- A record just stored is read back. -/
theorem dinode_setDinode_same (b : Block) {k : ℕ} (d : Dinode) (hk : k < ipb) :
    (b.setDinode k d).dinode k = d := by
  have htype := num_setDinode b 0 (w := 2) (v := d.type.toNat) (d := d) hk (by omega)
    (by intro j hj; simp [dinodeByte, hj])
  have hmajor := num_setDinode b 2 (w := 2) (v := d.major.toNat) (d := d) hk (by omega)
    (by intro j hj; simp [dinodeByte, show ¬ 2 + j < 2 by omega, show 2 + j < 4 by omega])
  have hminor := num_setDinode b 4 (w := 2) (v := d.minor.toNat) (d := d) hk (by omega)
    (by intro j hj; simp [dinodeByte, show ¬ 4 + j < 2 by omega, show ¬ 4 + j < 4 by omega,
          show 4 + j < 6 by omega])
  have hnlink := num_setDinode b 6 (w := 2) (v := d.nlink.toNat) (d := d) hk (by omega)
    (by intro j hj; simp [dinodeByte, show ¬ 6 + j < 2 by omega, show ¬ 6 + j < 4 by omega,
          show ¬ 6 + j < 6 by omega, show 6 + j < 8 by omega])
  have hsize := num_setDinode b 8 (w := 4) (v := d.size.toNat) (d := d) hk (by omega)
    (by intro j hj; simp [dinodeByte, show ¬ 8 + j < 2 by omega, show ¬ 8 + j < 4 by omega,
          show ¬ 8 + j < 6 by omega, show ¬ 8 + j < 8 by omega, show 8 + j < 12 by omega])
  have haddrs : ∀ i : Fin 13, (b.setDinode k d).num (64 * k + 12 + 4 * i) 4 =
      (d.addrs i).toNat % 256 ^ 4 := by
    intro i
    rw [Nat.add_assoc]
    refine num_setDinode b _ hk (by omega) ?_
    intro j hj
    have hdiv : (12 + 4 * i.val + j - 12) / 4 = i := by omega
    have hmod : (12 + 4 * i.val + j - 12) % 4 = j := by omega
    simp only [dinodeByte, show ¬ 12 + 4 * i.val + j < 2 by omega,
      show ¬ 12 + 4 * i.val + j < 4 by omega, show ¬ 12 + 4 * i.val + j < 6 by omega,
      show ¬ 12 + 4 * i.val + j < 8 by omega, show ¬ 12 + 4 * i.val + j < 12 by omega, if_false,
      hdiv, hmod]
    simp [Dinode.addr]
  have h16 : ∀ x : BitVec 16, BitVec.ofNat 16 (x.toNat % 256 ^ 2) = x := by
    intro x
    apply BitVec.eq_of_toNat_eq
    simpa using x.isLt
  have h32 : ∀ x : BitVec 32, BitVec.ofNat 32 (x.toNat % 256 ^ 4) = x := by
    intro x
    apply BitVec.eq_of_toNat_eq
    simpa using x.isLt
  ext1
  · simp only [dinode]
    rw [← Nat.add_zero (64 * k), htype, h16]
  · simp only [dinode]
    rw [hmajor, h16]
  · simp only [dinode]
    rw [hminor, h16]
  · simp only [dinode]
    rw [hnlink, h16]
  · simp only [dinode]
    rw [hsize, h32]
  · funext i
    simp only [dinode]
    rw [haddrs i, h32]

/-- The other records of the block stay. -/
theorem dinode_setDinode_ne (b : Block) {j k : ℕ} (d : Dinode) (hk : k < ipb) (hj : j ≠ k) :
    (b.setDinode k d).dinode j = b.dinode j := by
  have hle : 64 * k + 64 ≤ bsize := by
    unfold ipb at hk
    unfold bsize
    omega
  have hnum : ∀ off w, off + w ≤ 64 →
      (b.setDinode k d).num (64 * j + off) w = b.num (64 * j + off) w := by
    intro off w hw
    exact num_blit_disjoint b _ hle (by omega)
  ext1
  · simp only [dinode]
    rw [← Nat.add_zero (64 * j), hnum 0 2 (by omega)]
  · simp only [dinode]
    rw [hnum 2 2 (by omega)]
  · simp only [dinode]
    rw [hnum 4 2 (by omega)]
  · simp only [dinode]
    rw [hnum 6 2 (by omega)]
  · simp only [dinode]
    rw [hnum 8 4 (by omega)]
  · funext i
    simp only [dinode]
    rw [Nat.add_assoc, hnum (12 + 4 * i) 4 (by omega)]

end Block

/-! ## Directory entries -/

/-- `DIRSIZ`, the longest name in a directory. -/
def dirsiz : ℕ := 14

/-- A name in a directory: its bytes without the padding. -/
abbrev Name := List UInt8

/-- `struct dirent`. -/
structure Dirent where
  /-- Inode number, 0 for a free entry. -/
  inum : ℕ
  /-- Name. -/
  name : Name
  deriving DecidableEq

namespace Dirent

/-- The entry in the 16 bytes of `mem`; the name ends with the field or with a NUL. -/
def ofMem (mem : ℕ → UInt8) : Dirent where
  inum := num mem 0 2
  name := ((List.range dirsiz).map fun j => mem (2 + j)).takeWhile (· ≠ 0)

/-- The 16 bytes of an entry, the name copied by `strncpy`. -/
def mem (de : Dirent) : ℕ → UInt8 := fun j =>
  if j < 2 then leByte de.inum j else de.name.getD (j - 2) 0

/-- The entry depends on its 16 bytes. -/
theorem ofMem_congr {f g : ℕ → UInt8} (h : ∀ j < 16, f j = g j) : ofMem f = ofMem g := by
  have hinum : num f 0 2 = num g 0 2 :=
    Bytes.num_congr fun k hk => h _ (by omega)
  have hname : ((List.range dirsiz).map fun j => f (2 + j)) =
      (List.range dirsiz).map fun j => g (2 + j) := by
    refine List.map_congr_left fun j hj => h _ ?_
    have := List.mem_range.mp hj
    unfold dirsiz at this
    omega
  unfold ofMem
  rw [hinum, hname]

/-- An entry of zeros is free. -/
theorem inum_ofMem_zero {f : ℕ → UInt8} (h : ∀ j < 16, f j = 0) : (ofMem f).inum = 0 := by
  rw [ofMem_congr h]
  rfl

/-- A name that fits is read back. -/
theorem ofMem_mem {de : Dirent} (hinum : de.inum < 2 ^ 16) (hlen : de.name.length ≤ dirsiz)
    (hnul : ∀ c ∈ de.name, c ≠ 0) : ofMem de.mem = de := by
  have hnum : num de.mem 0 2 = de.inum := by
    have heq : num de.mem 0 2 = Bytes.le (leByte de.inum) 2 := by
      refine le_congr fun k hk => ?_
      simp [mem, hk]
    rw [heq, le_leByte]
    omega
  have hpad : ((List.range dirsiz).map fun j => de.mem (2 + j)) =
      de.name ++ List.replicate (dirsiz - de.name.length) 0 := by
    apply List.ext_getElem
    · simp
      omega
    · intro j h1 h2
      simp only [List.length_map, List.length_range] at h1
      have hj : ¬ 2 + j < 2 := by omega
      simp only [List.getElem_map, List.getElem_range, mem, hj, if_false, Nat.add_sub_cancel_left,
        List.getElem_append, List.getElem_replicate, List.getD_eq_getElem?_getD]
      split <;> simp [*]
  have hname : (de.name ++ List.replicate (dirsiz - de.name.length) 0).takeWhile (· ≠ 0) =
      de.name := by
    rw [List.takeWhile_append_of_pos (by simpa using hnul)]
    cases dirsiz - de.name.length <;> simp [List.replicate_succ]
  unfold ofMem
  rw [hnum, hpad, hname]

end Dirent

end RiscvKernel
