import RiscvKernel.Lib.Bytes

/-!
# Disk blocks

The limits of `param.h` and `fs.h`, and the disk block as an array of bytes. Every
on-disk structure (log header, inode, bitmap, directory entry, indirect block) is
read and written through the byte accessors of this file.
-/

namespace RiscvKernel

/-- `BSIZE`, the block size in bytes. -/
def bsize : ℕ := 1024

/-- `MAXOPBLOCKS`, the most blocks one file-system operation may write. -/
def maxopblocks : ℕ := 10

/-- `LOGBLOCKS`, the data blocks of the on-disk log. -/
def logblocks : ℕ := maxopblocks * 3

/-- `NBUF`, the size of the block cache. -/
def nbuf : ℕ := maxopblocks * 3

/-- `ROOTDEV`, the device of the file system. -/
def rootdev : ℕ := 1

/-- The contents of a disk block. -/
abbrev Block := Fin bsize → UInt8

namespace Block

/-- The block of zeros. -/
def zero : Block := fun _ => 0

/-- Byte `i` of a block. -/
def byte (b : Block) (i : ℕ) : UInt8 := if h : i < bsize then b ⟨i, h⟩ else 0

/-- Copy `n` bytes of `src` to offset `off` of the block. -/
def blit (b : Block) (off n : ℕ) (src : ℕ → UInt8) : Block :=
  fun j => if off ≤ j.val ∧ j.val < off + n then src (j.val - off) else b j

/-- The little-endian number of `w` bytes at offset `off`. -/
def num (b : Block) (off w : ℕ) : ℕ := Bytes.num b.byte off w

/-- Store a little-endian number of `w` bytes at offset `off`. -/
def put (b : Block) (off w v : ℕ) : Block := b.blit off w (Bytes.leByte v)

@[simp] theorem byte_zero (i : ℕ) : zero.byte i = 0 := by
  simp [byte, zero]

/-- Two blocks with the same bytes are equal. -/
theorem ext_byte {b c : Block} (h : ∀ i < bsize, b.byte i = c.byte i) : b = c := by
  funext i
  have := h i.val i.isLt
  simpa [byte, i.isLt] using this

/-- Inside the block, a copy is the copy of the byte stores. -/
theorem byte_blit (b : Block) {off n : ℕ} (src : ℕ → UInt8) (h : off + n ≤ bsize) :
    (b.blit off n src).byte = Bytes.blit b.byte off n src := by
  funext i
  by_cases hi : i < bsize
  · simp [byte, blit, Bytes.blit, hi]
  · have hout : ¬ (off ≤ i ∧ i < off + n) := by omega
    simp [byte, Bytes.blit, hi, hout]

/-- A number of a zeroed block is zero. -/
@[simp] theorem num_zero (off w : ℕ) : zero.num off w = 0 := by
  have hle : ∀ w, Bytes.le (fun _ => 0) w = 0 := by
    intro w
    induction w with
    | zero => rfl
    | succ w ih => simp [Bytes.le, ih]
  simpa [num, Bytes.num] using hle w

theorem num_put_same (b : Block) {off w : ℕ} (v : ℕ) (h : off + w ≤ bsize) :
    (b.put off w v).num off w = v % 256 ^ w := by
  unfold num put
  rw [byte_blit b _ h]
  exact Bytes.num_put_same _ off w v

theorem num_blit_disjoint (b : Block) {off n a w : ℕ} (src : ℕ → UInt8) (h : off + n ≤ bsize)
    (hd : a + w ≤ off ∨ off + n ≤ a) : (b.blit off n src).num a w = b.num a w := by
  unfold num
  rw [byte_blit b src h, Bytes.num_blit_disjoint _ _ hd]

theorem num_put_disjoint (b : Block) {off w a w' : ℕ} (v : ℕ) (h : off + w ≤ bsize)
    (hd : a + w' ≤ off ∨ off + w ≤ a) : (b.put off w v).num a w' = b.num a w' :=
  num_blit_disjoint b _ h hd

end Block

end RiscvKernel
