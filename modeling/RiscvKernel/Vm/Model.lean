import RiscvKernel.Lib.Seq
import RiscvKernel.Vm.Layout

/-!
# Physical pages and page tables

The functions of `kalloc.c` and `vm.c`, and the two functions of `proc.c` that make and
free the page table of a process. Page tables live in physical memory and are read and
written there. The pages of the free list are a list; `deny` lets `kalloc` fail at any
of its calls.
-/

namespace RiscvKernel

open Threads

/-- What the linker decides about the kernel's image. -/
structure KernelImage where
  /-- The first address after the kernel, `end`. -/
  kend : ℕ
  /-- The physical address of the trampoline page. -/
  trampoline : ℕ
  /-- The trampoline is a page. -/
  trampoline_mod : trampoline % pgsize = 0
  /-- The trampoline is part of the kernel. -/
  trampoline_lt : trampoline < kend
  /-- The kernel is loaded at `KERNBASE`. -/
  kernbase_le : kernbase ≤ trampoline

/-- Physical memory. -/
structure Vm where
  /-- The bytes. -/
  mem : ℕ → UInt8
  /-- `kmem.freelist`. -/
  freelist : List ℕ
  /-- Which calls of `kalloc` find no memory even though a page is free. -/
  deny : ℕ → Bool
  /-- The number of calls of `kalloc` so far. -/
  calls : ℕ

/-- A program over physical memory. -/
abbrev VmM := Seq Vm

/-! ## Memory -/

namespace Vm

/-- Replace the memory. -/
def setMem (s : Vm) (mem : ℕ → UInt8) : Vm := { s with mem := mem }

end Vm

/-- Read the 64-bit number at an address. -/
def load (a : ℕ) : VmM ℕ := Seq.gets fun s => Bytes.num s.mem a 8

theorem load_apply (a : ℕ) (s : Vm) : load a s = .ok (Bytes.num s.mem a 8) s := rfl

/-- Write the 64-bit number at an address. -/
def store (a v : ℕ) : VmM Unit := Seq.modify fun s => s.setMem (Bytes.put s.mem a 8 v)

/-- `memset`. -/
def memset (dst : ℕ) (c : UInt8) (n : ℕ) : VmM Unit :=
  Seq.modify fun s => s.setMem (Bytes.blit s.mem dst n fun _ => c)

/-- `memmove`, within physical memory. -/
def memmove (dst src n : ℕ) : VmM Unit :=
  Seq.modify fun s => s.setMem (Bytes.blit s.mem dst n fun k => s.mem (src + k))

/-- `memmove` from a buffer of the kernel. -/
def memmoveFrom (dst : ℕ) (src : ℕ → UInt8) (n : ℕ) : VmM Unit :=
  Seq.modify fun s => s.setMem (Bytes.blit s.mem dst n src)

/-- `memmove` into a buffer of the kernel. -/
def memmoveTo (src n : ℕ) : VmM (List UInt8) :=
  Seq.gets fun s => (List.range n).map fun k => s.mem (src + k)

/-! ## The page allocator -/

/-- `kfree`. -/
def kfree (img : KernelImage) (pa : ℕ) : VmM Unit :=
  if pa % pgsize ≠ 0 ∨ pa < img.kend ∨ pa ≥ physstop then Seq.panic "kfree"
  else do
    memset pa 1 pgsize
    Seq.modify fun s => { s with freelist := pa :: s.freelist }

/-- `kalloc`. -/
def kalloc : VmM ℕ := fun s =>
  match s.freelist with
  | [] => .ok 0 { s with calls := s.calls + 1 }
  | r :: rest =>
    if s.deny s.calls then .ok 0 { s with calls := s.calls + 1 }
    else
      let mem := Bytes.blit s.mem r pgsize fun _ => 5
      .ok r { s with mem := mem, freelist := rest, calls := s.calls + 1 }

/-! ## Page tables -/

/-- One turn of the loop of `walk`: the table below entry `i`, which is made if `alloc` is
set. -/
def walkNext (alloc : Bool) (pagetable : ℕ) (i : Fin 512) : VmM (Option ℕ) := do
  let pte ← load (pteAddr pagetable i)
  if hasFlag pte pteV then return some (pte2pa pte)
  else if alloc then do
    let page ← kalloc
    if page = 0 then return none
    memset page 0 pgsize
    store (pteAddr pagetable i) (pa2pte page ||| pteV)
    return some page
  else return none

/-- The loop of `walk`, from a level down to level 0. -/
def walkFrom (alloc : Bool) (va : ℕ) : ℕ → ℕ → VmM ℕ
  | 0, pagetable => return pteAddr pagetable (px 0 va)
  | level + 1, pagetable => do
    match ← walkNext alloc pagetable (px (level + 1) va) with
    | none => return 0
    | some pagetable => walkFrom alloc va level pagetable

/-- `walk`: the address of the entry for `va`, or 0. -/
def walk (pagetable va : ℕ) (alloc : Bool) : VmM ℕ :=
  if va ≥ maxva then Seq.panic "walk" else walkFrom alloc va 2 pagetable

/-- `walkaddr`: the physical page of a user address, or 0. -/
def walkaddr (pagetable va : ℕ) : VmM ℕ :=
  if va ≥ maxva then return 0
  else do
    let pte ← walk pagetable va false
    if pte = 0 then return 0
    let e ← load pte
    if hasFlag e pteV = false then return 0
    if hasFlag e pteU = false then return 0
    return pte2pa e

/-- One turn of the loop of `mappages`. -/
def mapPage (pagetable a pa perm : ℕ) : VmM ℤ := do
  let pte ← walk pagetable a true
  if pte = 0 then return -1
  else do
    let e ← load pte
    if hasFlag e pteV then Seq.panic "mappages: remap"
    else do
      store pte (pa2pte pa ||| perm ||| pteV)
      return 0

/-- The loop of `mappages`, with `n + 1` pages to go. -/
def mappagesFrom (pagetable perm : ℕ) : ℕ → ℕ → ℕ → VmM ℤ
  | 0, a, pa => mapPage pagetable a pa perm
  | n + 1, a, pa => do
    let r ← mapPage pagetable a pa perm
    if r ≠ 0 then return r
    else mappagesFrom pagetable perm n ((a + pgsize) % 2 ^ 64) ((pa + pgsize) % 2 ^ 64)

/-- `mappages`. The loop ends when `a` is the last page, `size / PGSIZE` turns later. -/
def mappages (pagetable va size pa perm : ℕ) : VmM ℤ :=
  if va % pgsize ≠ 0 then Seq.panic "mappages: va not aligned"
  else if size % pgsize ≠ 0 then Seq.panic "mappages: size not aligned"
  else if size = 0 then Seq.panic "mappages: size"
  else mappagesFrom pagetable perm (size / pgsize - 1) va pa

/-- `uvmcreate`. -/
def uvmcreate : VmM ℕ := do
  let pagetable ← kalloc
  if pagetable = 0 then return 0
  memset pagetable 0 pgsize
  return pagetable

/-- One turn of the loop of `uvmunmap`. -/
def unmapPage (img : KernelImage) (pagetable a : ℕ) (doFree : Bool) : VmM Unit := do
  let pte ← walk pagetable a false
  if pte = 0 then return ()
  let e ← load pte
  if hasFlag e pteV = false then return ()
  if doFree then kfree img (pte2pa e)
  store pte 0

/-- The loop of `uvmunmap`, with `n` pages to go. -/
def unmapFrom (img : KernelImage) (pagetable : ℕ) (doFree : Bool) : ℕ → ℕ → VmM Unit
  | 0, _ => return ()
  | n + 1, a => do
    unmapPage img pagetable a doFree
    unmapFrom img pagetable doFree n (a + pgsize)

/-- `uvmunmap`. The bound of the loop is computed in 64 bits. -/
def uvmunmap (img : KernelImage) (pagetable va npages : ℕ) (doFree : Bool) : VmM Unit :=
  if va % pgsize ≠ 0 then Seq.panic "uvmunmap: not aligned"
  else
    let bound := (va + npages * pgsize) % 2 ^ 64
    unmapFrom img pagetable doFree ((bound - va) / pgsize) va

/-- A number converted to `int` and back to `uint64`. -/
def viaInt (x : ℕ) : ℕ := if x % 2 ^ 32 < 2 ^ 31 then x % 2 ^ 32 else 2 ^ 64 - 2 ^ 32 + x % 2 ^ 32

/-- `uvmdealloc`. -/
def uvmdealloc (img : KernelImage) (pagetable oldsz newsz : ℕ) : VmM ℕ :=
  if newsz ≥ oldsz then return oldsz
  else do
    if pgroundup newsz < pgroundup oldsz then
      let npages := viaInt ((pgroundup oldsz - pgroundup newsz) / pgsize)
      uvmunmap img pagetable (pgroundup newsz) npages true
    return newsz

/-- The loop of `uvmalloc`, with `n` pages to go. -/
def uvmallocFrom (img : KernelImage) (pagetable oldsz newsz xperm : ℕ) : ℕ → ℕ → VmM ℕ
  | 0, _ => return newsz
  | n + 1, a => do
    let mem ← kalloc
    if mem = 0 then do
      let _ ← uvmdealloc img pagetable a oldsz
      return 0
    else do
      memset mem 0 pgsize
      let r ← mappages pagetable a pgsize mem (pteR ||| pteU ||| xperm)
      if r ≠ 0 then do
        kfree img mem
        let _ ← uvmdealloc img pagetable a oldsz
        return 0
      else uvmallocFrom img pagetable oldsz newsz xperm n (a + pgsize)

/-- `uvmalloc`. -/
def uvmalloc (img : KernelImage) (pagetable oldsz newsz xperm : ℕ) : VmM ℕ :=
  if newsz < oldsz then return oldsz
  else
    let oldsz := pgroundup oldsz
    uvmallocFrom img pagetable oldsz newsz xperm ((newsz - oldsz + pgsize - 1) / pgsize) oldsz

/-- The loop of `freewalk` over the entries of one table, with `n` entries to go. -/
def freewalkFrom (below : ℕ → VmM Unit) (pagetable : ℕ) : ℕ → VmM Unit
  | 0 => return ()
  | n + 1 => do
    let slot := pagetable + 8 * (511 - n)
    let pte ← load slot
    if hasFlag pte pteV && hasFlag pte (pteR ||| pteW ||| pteX) = false then do
      below (pte2pa pte)
      store slot 0
    else if hasFlag pte pteV then Seq.panic "freewalk: leaf"
    freewalkFrom below pagetable n

/-- `freewalk` on a table with at most `depth` levels. -/
def freewalk (img : KernelImage) : ℕ → ℕ → VmM Unit
  | 0, _ => Seq.stuck
  | depth + 1, pagetable => do
    freewalkFrom (freewalk img depth) pagetable 512
    kfree img pagetable

/-- `uvmfree`. -/
def uvmfree (img : KernelImage) (pagetable sz : ℕ) : VmM Unit := do
  if sz > 0 then uvmunmap img pagetable 0 (pgroundup sz / pgsize) true
  freewalk img 3 pagetable

/-- The loop of `uvmcopy`, with `n` pages to go. -/
def uvmcopyFrom (img : KernelImage) (old new : ℕ) : ℕ → ℕ → VmM ℤ
  | 0, _ => return 0
  | n + 1, i => do
    let pte ← walk old i false
    if pte = 0 then uvmcopyFrom img old new n (i + pgsize)
    else do
      let e ← load pte
      if hasFlag e pteV = false then uvmcopyFrom img old new n (i + pgsize)
      else do
        let mem ← kalloc
        if mem = 0 then do
          uvmunmap img new 0 (i / pgsize) true
          return -1
        else do
          memmove mem (pte2pa e) pgsize
          let r ← mappages new i pgsize mem (pteFlags e)
          if r ≠ 0 then do
            kfree img mem
            uvmunmap img new 0 (i / pgsize) true
            return -1
          else uvmcopyFrom img old new n (i + pgsize)

/-- `uvmcopy`. -/
def uvmcopy (img : KernelImage) (old new sz : ℕ) : VmM ℤ :=
  uvmcopyFrom img old new ((sz + pgsize - 1) / pgsize) 0

/-- `uvmclear`. -/
def uvmclear (pagetable va : ℕ) : VmM Unit := do
  let pte ← walk pagetable va false
  if pte = 0 then Seq.panic "uvmclear"
  else do
    let e ← load pte
    store pte (e &&& (2 ^ 64 - 1 - pteU))

/-! ## User memory -/

/-- What `vmfault` reads of the current process. -/
structure UserSpace where
  /-- Size of the process memory in bytes. -/
  sz : ℕ
  /-- The page table. -/
  pagetable : ℕ

/-- `ismapped`. -/
def ismapped (pagetable va : ℕ) : VmM Bool := do
  let pte ← walk pagetable va false
  if pte = 0 then return false
  let e ← load pte
  return hasFlag e pteV

/-- `vmfault`, called by process `p`. -/
def vmfault (img : KernelImage) (p : UserSpace) (pagetable va : ℕ) : VmM ℕ :=
  if va ≥ p.sz then return 0
  else do
    let va := pgrounddown va
    if ← ismapped pagetable va then return 0
    let mem ← kalloc
    if mem = 0 then return 0
    memset mem 0 pgsize
    let r ← mappages p.pagetable va pgsize mem (pteW ||| pteU ||| pteR)
    if r ≠ 0 then do
      kfree img mem
      return 0
    else return mem

/-- The physical page of a user page, which is filled in if it was allocated lazily. -/
def userPage (img : KernelImage) (p : UserSpace) (pagetable va0 : ℕ) : VmM ℕ := do
  let pa0 ← walkaddr pagetable va0
  if pa0 = 0 then vmfault img p pagetable va0 else return pa0

/-- The loop of `copyout`; `fuel` bounds the number of pages. -/
def copyoutFrom (img : KernelImage) (p : UserSpace) (pagetable : ℕ) :
    ℕ → ℕ → (ℕ → UInt8) → ℕ → VmM ℤ
  | 0, _, _, _ => return 0
  | fuel + 1, dstva, src, len =>
    if len = 0 then return 0
    else do
      let va0 := pgrounddown dstva
      if va0 ≥ maxva then return -1
      else do
        let pa0 ← userPage img p pagetable va0
        if pa0 = 0 then return -1
        else do
          let pte ← walk pagetable va0 false
          let e ← load pte
          if hasFlag e pteW = false then return -1
          else do
            let n := min (pgsize - (dstva - va0)) len
            memmoveFrom (pa0 + (dstva - va0)) src n
            copyoutFrom img p pagetable fuel ((va0 + pgsize) % 2 ^ 64) (fun k => src (n + k))
              (len - n)

/-- `copyout`, called by process `p`. -/
def copyout (img : KernelImage) (p : UserSpace) (pagetable dstva : ℕ) (src : ℕ → UInt8)
    (len : ℕ) : VmM ℤ :=
  copyoutFrom img p pagetable len dstva src len

/-- The loop of `copyin`; `fuel` bounds the number of pages. The bytes copied so far are
returned with the result. -/
def copyinFrom (img : KernelImage) (p : UserSpace) (pagetable : ℕ) :
    ℕ → ℕ → ℕ → VmM (ℤ × List UInt8)
  | 0, _, _ => return (0, [])
  | fuel + 1, srcva, len =>
    if len = 0 then return (0, [])
    else do
      let va0 := pgrounddown srcva
      let pa0 ← userPage img p pagetable va0
      if pa0 = 0 then return (-1, [])
      else do
        let n := min (pgsize - (srcva - va0)) len
        let bytes ← memmoveTo (pa0 + (srcva - va0)) n
        let r ← copyinFrom img p pagetable fuel ((va0 + pgsize) % 2 ^ 64) (len - n)
        return (r.1, bytes ++ r.2)

/-- `copyin`, called by process `p`. -/
def copyin (img : KernelImage) (p : UserSpace) (pagetable srcva len : ℕ) :
    VmM (ℤ × List UInt8) :=
  copyinFrom img p pagetable len srcva len

/-- The bytes of a list before its first zero, if it has one. -/
def untilNul : List UInt8 → List UInt8 × Bool
  | [] => ([], false)
  | c :: rest => if c = 0 then ([], true) else (c :: (untilNul rest).1, (untilNul rest).2)

/-- The loop of `copyinstr`; `fuel` bounds the number of pages. -/
def copyinstrFrom (pagetable : ℕ) : ℕ → ℕ → ℕ → VmM (Option (List UInt8))
  | 0, _, _ => return none
  | fuel + 1, srcva, max =>
    if max = 0 then return none
    else do
      let va0 := pgrounddown srcva
      let pa0 ← walkaddr pagetable va0
      if pa0 = 0 then return none
      else do
        let n := min (pgsize - (srcva - va0)) max
        let bytes ← memmoveTo (pa0 + (srcva - va0)) n
        let str := untilNul bytes
        if str.2 then return some str.1
        else do
          let r ← copyinstrFrom pagetable fuel ((va0 + pgsize) % 2 ^ 64) (max - n)
          return r.map (str.1 ++ ·)

/-- `copyinstr`: the string at a user address, if it ends within `max` bytes. -/
def copyinstr (pagetable srcva max : ℕ) : VmM (Option (List UInt8)) :=
  copyinstrFrom pagetable (max + 1) srcva max

/-! ## The page table of a process -/

/-- `proc_pagetable`, for a process with the given trapframe page. -/
def procPagetable (img : KernelImage) (trapframe : ℕ) : VmM ℕ := do
  let pagetable ← uvmcreate
  if pagetable = 0 then return 0
  else do
    let r ← mappages pagetable trampolineVa pgsize img.trampoline (pteR ||| pteX)
    if r < 0 then do
      uvmfree img pagetable 0
      return 0
    else do
      let r ← mappages pagetable trapframeVa pgsize trapframe (pteR ||| pteW)
      if r < 0 then do
        uvmunmap img pagetable trampolineVa 1 false
        uvmfree img pagetable 0
        return 0
      else return pagetable

/-- `proc_freepagetable`. -/
def procFreepagetable (img : KernelImage) (pagetable sz : ℕ) : VmM Unit := do
  uvmunmap img pagetable trampolineVa 1 false
  uvmunmap img pagetable trapframeVa 1 false
  uvmfree img pagetable sz

end RiscvKernel
