import RiscvKernel.Lib.Seq
import RiscvKernel.Fs.Layout
import RiscvKernel.Vm.Layout

/-!
# Blocks, inodes and file contents

The functions of `fs.c` that a process runs while it holds the lock of the inode they
are about: the block allocator, the inode records, the mapping of file blocks and the
contents of files. The disk is seen through the buffer cache. A buffer is a value
between `bread` and `brelse`; the state remembers which blocks are held, which were
logged, and which were released with changes that nobody logged.
-/

namespace RiscvKernel

open Threads

/-- `NINODE`, the size of the table of in-memory inodes. -/
def ninode : ℕ := 50

/-- An index into `itable.inode`. -/
abbrev InodeId := Fin ninode

instance : NeZero ninode := ⟨by decide⟩

/-- `struct inode` without its lock. -/
structure Inode where
  /-- Inode number. -/
  inum : ℕ
  /-- Reference count. -/
  ref : ℤ
  /-- Has the inode been read from disk? -/
  valid : Bool
  /-- Copy of the disk inode. -/
  d : Dinode

/-- The state of the file system. -/
structure Fs where
  /-- The blocks of the disk as the cache presents them. -/
  blocks : ℕ → Block
  /-- The blocks whose buffers are held. -/
  held : List ℕ
  /-- The blocks passed to `log_write`, latest first. -/
  logged : List ℕ
  /-- The blocks released with changes that were not logged, latest first. -/
  unlogged : List ℕ
  /-- How often `balloc` returned 0. -/
  denied : ℕ
  /-- `itable.inode`. -/
  itable : InodeId → Inode

/-- A program over the file system. -/
abbrev FsM := Seq Fs

/-! ## Buffers -/

/-- A buffer between `bread` and `brelse`. -/
structure Bp where
  /-- The block. -/
  blockno : ℕ
  /-- The data that `bread` returned. -/
  orig : Block
  /-- The data. -/
  data : Block
  /-- No change since the last `log_write`. -/
  clean : Bool

/-- Change the data of a buffer. -/
def Bp.modify (bp : Bp) (f : Block → Block) : Bp := { bp with data := f bp.data, clean := false }

/-- `bread`. A process that already holds the buffer waits for itself. -/
def fsRead (b : ℕ) : FsM Bp := fun s =>
  if b ∈ s.held then .stuck s
  else .ok ⟨b, s.blocks b, s.blocks b, true⟩ { s with held := b :: s.held }

/-- `log_write`, but for its panics: `inTransaction` adds the one for a full header, and the
other one is for callers outside an operation. -/
def fsLog (bp : Bp) : FsM Bp := fun s =>
  .ok { bp with clean := true } { s with logged := bp.blockno :: s.logged }

/-- The header `log.lh` once the blocks of the second list, latest first, have been passed to
`log_write` in an operation that found the header `lh`. A call that finds the header full
panics, also if the block is listed already. -/
def logHeader (lh : List ℕ) : List ℕ → Option (List ℕ)
  | [] => some lh
  | b :: bs => do
    let blocks ← logHeader lh bs
    if blocks.length ≥ logblocks then none
    else if b ∈ blocks then some blocks
    else some (blocks ++ [b])

/-- `m` in an operation that finds the header `lh`, with the panic of `log_write`. The header
only grows, so a run that has found it full is recognised by what it has logged. -/
def inTransaction {α : Type} (lh : List ℕ) (m : FsM α) : FsM α := fun s =>
  match m { s with logged := [] } with
  | .ok a s' =>
    if (logHeader lh s'.logged).isSome then .ok a s' else .panic "too big a transaction" s'
  | o => o

/-- The state after `brelse`. -/
def Fs.release (s : Fs) (bp : Bp) : Fs :=
  { s with
    blocks := Function.update s.blocks bp.blockno bp.data
    held := s.held.erase bp.blockno
    unlogged := if bp.clean = true ∨ ∀ i < bsize, bp.data.byte i = bp.orig.byte i then s.unlogged
      else bp.blockno :: s.unlogged }

/-- `brelse`. -/
def fsRelse (bp : Bp) : FsM Unit := Seq.modify fun s => s.release bp

/-! ## Blocks -/

/-- `bzero`. -/
def bzero (bno : ℕ) : FsM Unit := do
  let bp ← fsRead bno
  let bp ← fsLog (bp.modify fun _ => Block.zero)
  fsRelse bp

/-- The inner loop of `balloc`: the first clear bit from `bi` on, below `lim`. -/
def scanBits (data : Block) (lim : ℕ) : ℕ → ℕ → Option ℕ
  | 0, _ => none
  | n + 1, bi => if bi < lim then
      if data.bit bi = false then some bi else scanBits data lim n (bi + 1)
    else none

/-- The outer loop of `balloc`, from the block of the free map that starts with bit `b`. -/
def ballocFrom (sb : Superblock) : ℕ → ℕ → FsM ℕ
  | 0, _ => do
    Seq.modify fun s => { s with denied := s.denied + 1 }
    return 0
  | n + 1, b => do
    let bp ← fsRead (sb.bblock b)
    match scanBits bp.data (sb.size - b) bpb 0 with
    | some bi =>
      let bp ← fsLog (bp.modify (·.markBit bi))
      fsRelse bp
      bzero (b + bi)
      return b + bi
    | none =>
      fsRelse bp
      ballocFrom sb n (b + bpb)

/-- `balloc`: `b < sb.size` for `⌈size / BPB⌉` rounds of the outer loop. -/
def balloc (sb : Superblock) : FsM ℕ := ballocFrom sb ((sb.size + bpb - 1) / bpb) 0

/-- `bfree`. -/
def bfree (sb : Superblock) (b : ℕ) : FsM Unit := do
  let bp ← fsRead (sb.bblock b)
  if bp.data.bit (b % bpb) = false then Seq.panic "freeing free block"
  else
    let bp ← fsLog (bp.modify (·.clearBit (b % bpb)))
    fsRelse bp

/-! ## Inodes -/

/-- Change the in-memory inode. -/
def Fs.setInode (s : Fs) (e : InodeId) (ip : Inode) : Fs :=
  { s with itable := Function.update s.itable e ip }

/-- Change the copy of the disk inode in the in-memory inode. -/
def Fs.setD (s : Fs) (e : InodeId) (d : Dinode) : Fs := s.setInode e { s.itable e with d := d }

@[simp] theorem Fs.setD_blocks (s : Fs) (e : InodeId) (d : Dinode) :
    (s.setD e d).blocks = s.blocks := rfl

/-- One round of the loop of `ialloc`: take the inode if it is free. -/
def iallocAt (sb : Superblock) (type : BitVec 16) (inum : ℕ) : FsM Bool := do
  let bp ← fsRead (sb.iblock inum)
  if (bp.data.dinode (inum % ipb)).type = 0 then
    let bp ← fsLog (bp.modify (·.setDinode (inum % ipb) { Dinode.zero with type := type }))
    fsRelse bp
    return true
  else
    fsRelse bp
    return false

/-- `iupdate`. -/
def iupdate (sb : Superblock) (e : InodeId) : FsM Unit := do
  let ip ← Seq.gets (·.itable e)
  let bp ← fsRead (sb.iblock ip.inum)
  let bp ← fsLog (bp.modify (·.setDinode (ip.inum % ipb) ip.d))
  fsRelse bp

/-- The part of `ilock` after the lock is taken: read the inode from disk if necessary. -/
def iload (sb : Superblock) (e : InodeId) : FsM Unit := do
  let ip ← Seq.gets (·.itable e)
  if ip.valid then return ()
  else
    let bp ← fsRead (sb.iblock ip.inum)
    let d := bp.data.dinode (ip.inum % ipb)
    fsRelse bp
    Seq.modify fun s => s.setInode e { s.itable e with valid := true, d := d }
    if d.type = 0 then Seq.panic "ilock: no type"

/-- `if((addr = ip->addrs[k]) == 0){ addr = balloc(ip->dev); if(addr) ip->addrs[k] = addr; }`. -/
def addrOrAlloc (sb : Superblock) (e : InodeId) (k : ℕ) : FsM ℕ := do
  let ip ← Seq.gets (·.itable e)
  if ip.d.addr k = 0 then
    let addr ← balloc sb
    if addr = 0 then return 0
    else
      Seq.modify fun s => s.setD e ((s.itable e).d.setAddr k addr)
      return addr
  else return ip.d.addr k

/-- The part of `bmap` that looks entry `j` up in the indirect block `addr`. -/
def bmapIndirect (sb : Superblock) (addr j : ℕ) : FsM ℕ := do
  let bp ← fsRead addr
  if bp.data.entry j = 0 then
    let a ← balloc sb
    if a = 0 then
      fsRelse bp
      return 0
    else
      let bp ← fsLog (bp.modify (·.setEntry j a))
      fsRelse bp
      return a
  else
    fsRelse bp
    return bp.data.entry j

/-- `bmap`. -/
def bmap (sb : Superblock) (e : InodeId) (bn : ℕ) : FsM ℕ :=
  if bn < ndirect then addrOrAlloc sb e bn
  else if bn - ndirect < nindirect then do
    let addr ← addrOrAlloc sb e ndirect
    if addr = 0 then return 0
    else bmapIndirect sb addr (bn - ndirect)
  else Seq.panic "bmap: out of range"

/-- The first loop of `itrunc`. -/
def truncDirect (sb : Superblock) (e : InodeId) : List ℕ → FsM Unit
  | [] => return ()
  | i :: is => do
    let ip ← Seq.gets (·.itable e)
    if ip.d.addr i = 0 then truncDirect sb e is
    else
      bfree sb (ip.d.addr i)
      Seq.modify fun s => s.setD e ((s.itable e).d.setAddr i 0)
      truncDirect sb e is

/-- The loop of `itrunc` over the entries of the indirect block. -/
def truncEntries (sb : Superblock) (data : Block) : List ℕ → FsM Unit
  | [] => return ()
  | j :: js => do
    if data.entry j = 0 then truncEntries sb data js
    else
      bfree sb (data.entry j)
      truncEntries sb data js

/-- The part of `itrunc` for the indirect block. -/
def truncIndirect (sb : Superblock) (e : InodeId) : FsM Unit := do
  let ip ← Seq.gets (·.itable e)
  if ip.d.addr ndirect = 0 then return ()
  else
    let bp ← fsRead (ip.d.addr ndirect)
    truncEntries sb bp.data (List.range nindirect)
    fsRelse bp
    bfree sb (ip.d.addr ndirect)
    Seq.modify fun s => s.setD e ((s.itable e).d.setAddr ndirect 0)

/-- `itrunc`. -/
def itrunc (sb : Superblock) (e : InodeId) : FsM Unit := do
  truncDirect sb e (List.range ndirect)
  truncIndirect sb e
  Seq.modify fun s => s.setD e { (s.itable e).d with size := 0 }
  iupdate sb e

/-! ## File contents -/

/-- Byte-addressed memory. -/
abbrev Mem := ℕ → UInt8

/-- The source of `writei`: kernel memory, or user memory of which each page is present
(mapped, or supplied by `vmfault`) or not. -/
inductive Source where
  | kernel (mem : Mem)
  | user (mem : Mem) (present : ℕ → Bool)

/-- The destination of `readi`: kernel memory, or user memory of which each page can be
written or not. -/
inductive Target where
  | kernel
  | user (writable : ℕ → Bool)

/-- The loop of `copyin` and `copyout`, page by page: how many bytes are copied, and
whether all of them. Each round copies at least one byte, so `len` rounds suffice. -/
def copyPages (ok : ℕ → Bool) : ℕ → ℕ → ℕ → ℕ × Bool
  | 0, _, _ => (0, true)
  | fuel + 1, va, len =>
    if len = 0 then (0, true)
    else if ok (va / pgsize) then
      let n := min (pgsize - va % pgsize) len
      let r := copyPages ok fuel (va - va % pgsize + pgsize) (len - n)
      (n + r.1, r.2)
    else (0, false)

/-- The memory that a source reads. -/
def Source.mem : Source → Mem
  | kernel mem => mem
  | user mem _ => mem

/-- `either_copyin`: how many bytes are copied, and whether all of them. -/
def Source.copyin : Source → ℕ → ℕ → ℕ × Bool
  | kernel _, _, len => (len, true)
  | user _ present, src, len => copyPages present len src len

/-- `either_copyout`: how many bytes are copied, and whether all of them. -/
def Target.copyout : Target → ℕ → ℕ → ℕ × Bool
  | kernel, _, len => (len, true)
  | user writable, dst, len => copyPages writable len dst len

/-- The loop of `readi`. It returns `tot` and the destination memory. -/
def readiLoop (sb : Superblock) (e : InodeId) (target : Target) (n : ℕ) :
    ℕ → ℕ → ℕ → ℕ → Mem → FsM (ℤ × Mem)
  | 0, tot, _, _, mem => return (tot, mem)
  | fuel + 1, tot, off, dst, mem =>
    if tot < n then do
      let addr ← bmap sb e (off / bsize)
      if addr = 0 then return (tot, mem)
      else
        let bp ← fsRead addr
        let m := min (n - tot) (bsize - off % bsize)
        let r := target.copyout dst m
        let mem := Bytes.blit mem dst r.1 fun k => bp.data.byte (off % bsize + k)
        fsRelse bp
        if r.2 then readiLoop sb e target n fuel (tot + m) (off + m) (dst + m) mem
        else return (-1, mem)
    else return (tot, mem)

/-- `readi`. It returns the result and the destination memory. -/
def readi (sb : Superblock) (e : InodeId) (target : Target) (dst off n : ℕ) (mem : Mem) :
    FsM (ℤ × Mem) := do
  let ip ← Seq.gets (·.itable e)
  let size := ip.d.size.toNat
  if off > size ∨ (off + n) % 2 ^ 32 < off then return (0, mem)
  else
    let n := if off + n > size then size - off else n
    readiLoop sb e target n n 0 off dst mem

/-- The loop of `writei`. It returns `tot` and `off`. -/
def writeiLoop (sb : Superblock) (e : InodeId) (source : Source) (n : ℕ) :
    ℕ → ℕ → ℕ → ℕ → FsM (ℕ × ℕ)
  | 0, tot, off, _ => return (tot, off)
  | fuel + 1, tot, off, src =>
    if tot < n then do
      let addr ← bmap sb e (off / bsize)
      if addr = 0 then return (tot, off)
      else
        let bp ← fsRead addr
        let m := min (n - tot) (bsize - off % bsize)
        let r := source.copyin src m
        let bp := bp.modify (·.blit (off % bsize) r.1 fun k => source.mem (src + k))
        if r.2 then
          let bp ← fsLog bp
          fsRelse bp
          writeiLoop sb e source n fuel (tot + m) (off + m) (src + m)
        else
          fsRelse bp
          return (tot, off)
    else return (tot, off)

/-- `writei`. -/
def writei (sb : Superblock) (e : InodeId) (source : Source) (src off n : ℕ) : FsM ℤ := do
  let ip ← Seq.gets (·.itable e)
  if off > ip.d.size.toNat ∨ (off + n) % 2 ^ 32 < off then return -1
  else if (off + n) % 2 ^ 32 > maxfile * bsize then return -1
  else
    let r ← writeiLoop sb e source n n 0 off src
    Seq.modify fun s =>
      if r.2 > (s.itable e).d.size.toNat then
        s.setD e { (s.itable e).d with size := BitVec.ofNat 32 r.2 }
      else s
    iupdate sb e
    return r.1

/-! ## Directories -/

/-- The size of a directory entry. -/
def direntSize : ℕ := 16

/-- `readi(dp, 0, (uint64)&de, off, sizeof(de))`, with a panic if it fails. -/
def readDirent (sb : Superblock) (e : InodeId) (msg : String) (off : ℕ) : FsM Dirent := do
  let r ← readi sb e .kernel 0 off direntSize fun _ => 0
  if r.1 = direntSize then return Dirent.ofMem r.2 else Seq.panic msg

/-- The loop over the entries of a directory from offset `off` on, up to the first entry
that satisfies `stop`. It returns the offset reached and the entry. -/
def dirScan (sb : Superblock) (e : InodeId) (msg : String) (stop : Dirent → Bool) :
    ℕ → ℕ → FsM (ℕ × Option Dirent)
  | 0, off => return (off, none)
  | fuel + 1, off => do
    let ip ← Seq.gets (·.itable e)
    if off < ip.d.size.toNat then
      let de ← readDirent sb e msg off
      if stop de then return (off, some de)
      else dirScan sb e msg stop fuel (off + direntSize)
    else return (off, none)

/-- The loop over all entries from the offset `off` on. -/
def dirScanAll (sb : Superblock) (e : InodeId) (msg : String) (stop : Dirent → Bool) (off : ℕ) :
    FsM (ℕ × Option Dirent) := do
  let ip ← Seq.gets (·.itable e)
  dirScan sb e msg stop (ip.d.size.toNat / direntSize + 1) off

/-- The search of `dirlookup`: the inode number of the entry and its offset. -/
def dirlookupScan (sb : Superblock) (e : InodeId) (name : Name) : FsM (Option (ℕ × ℕ)) := do
  let ip ← Seq.gets (·.itable e)
  if ip.d.type ≠ tDir then Seq.panic "dirlookup not DIR"
  else
    let r ← dirScanAll sb e "dirlookup read" (fun de => de.inum ≠ 0 ∧ de.name = name) 0
    return r.2.map fun de => (de.inum, r.1)

/-- The second half of `dirlink`: store the entry in the first free slot. It returns the
offset of the entry if it is stored. -/
def dirlinkStore (sb : Superblock) (e : InodeId) (name : Name) (inum : ℕ) : FsM (Option ℕ) := do
  let r ← dirScanAll sb e "dirlink read" (fun de => de.inum = 0) 0
  let n ← writei sb e (.kernel (Dirent.mem ⟨inum, name⟩)) 0 r.1 direntSize
  return if n = direntSize then some r.1 else none

/-- `isdirempty`. -/
def isdirempty (sb : Superblock) (e : InodeId) : FsM Bool := do
  let r ← dirScanAll sb e "isdirempty: readi" (fun de => de.inum ≠ 0) (2 * direntSize)
  return r.2.isNone

/-- The part of `sys_unlink` that clears the directory entry. -/
def clearDirent (sb : Superblock) (e : InodeId) (off : ℕ) : FsM Unit := do
  let n ← writei sb e (.kernel fun _ => 0) 0 off direntSize
  if n = direntSize then return () else Seq.panic "unlink: writei"

end RiscvKernel
