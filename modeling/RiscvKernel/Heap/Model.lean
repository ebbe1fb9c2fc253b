import RiscvKernel.Sys.Model

/-!
# The heap of a user program

The allocator of `umalloc.c`, over the break that `sbrk` moves. A block is a number of units of
the size of a header and begins with its header; the free blocks form a ring in the order of
their addresses, which begins with the static header `base`. The memory is seen as headers: the
header at an address is what lies in the sixteen bytes from there on. A store beyond the last
page below the break kills the program.

The history records what the program has got from the allocator, and the allocator from the
kernel; no function reads it.
-/

namespace RiscvKernel.Heap

open Threads

/-- `Header`. -/
structure Header where
  /-- The next free block. -/
  ptr : ℕ
  /-- The size of the block in units. -/
  size : ℕ

/-- `sizeof(Header)`. -/
def headerSize : ℕ := 16

/-- A block. -/
structure Block where
  /-- The address of its header. -/
  addr : ℕ
  /-- Its size in units. -/
  size : ℕ
  deriving DecidableEq

/-- The end of a block. -/
def Block.stop (b : Block) : ℕ := b.addr + headerSize * b.size

/-- The bytes of a block, its header included. -/
def Block.range (b : Block) : ℕ × ℕ := (b.addr, headerSize * b.size)

/-- What has happened so far. -/
structure History where
  /-- The blocks handed out and not freed. -/
  live : List Block
  /-- The count that the block at an address was allocated for. -/
  asked : ℕ → ℕ
  /-- The memory obtained from `sbrk`. -/
  got : List (ℕ × ℕ)
  /-- The units that `morecore` wanted, and the argument of its `sbrk`. -/
  requests : List (ℕ × ℤ)

/-- The state of the allocator. -/
structure State where
  /-- The address of `base`. -/
  base : ℕ
  /-- The memory. -/
  hdr : ℕ → Header
  /-- `freep`, null at first. -/
  freep : ℕ
  /-- The break. -/
  brk : ℕ
  /-- The highest break that the kernel grants. -/
  limit : ℕ
  /-- The calls of `sbrk` for which the kernel has no memory. -/
  refuse : ℕ → Bool
  /-- The number of calls of `sbrk` so far. -/
  calls : ℕ
  /-- The history. -/
  hist : History

/-- Programs over the heap. -/
abbrev HeapM := Seq State

/-- Read a header. -/
def header (a : ℕ) : HeapM Header := fun s =>
  if a < pgroundup s.brk then .ok (s.hdr a) s else .panic "usertrap" s

/-- Store into a header. -/
def setHeader (a : ℕ) (f : Header → Header) : HeapM Unit := fun s =>
  if a < pgroundup s.brk then .ok () { s with hdr := Function.update s.hdr a (f (s.hdr a)) }
  else .panic "usertrap" s

/-- `h->s.ptr = ptr`. -/
def setPtr (a ptr : ℕ) : HeapM Unit := setHeader a fun h => { h with ptr := ptr }

/-- `h->s.size = size`. -/
def setSize (a size : ℕ) : HeapM Unit := setHeader a fun h => { h with size := size }

/-! ## The break -/

/-- The `int` that a 64-bit number becomes. -/
def toInt (x : ℕ) : ℤ := ((x + 2 ^ 31) % 2 ^ 32 : ℕ) - 2 ^ 31

/-- What the kernel does on `sbrk(n)`: the result and the new break. To shrink, `growproc` calls
`uvmdealloc`, which does nothing if the new size, a `uint64`, is not smaller. -/
def kernelSbrk (refused : Bool) (limit brk : ℕ) (n : ℤ) : Option ℕ × ℕ :=
  if 0 < n then
    if refused = true ∨ (limit : ℤ) < brk + n then (none, brk) else (some brk, (brk + n).toNat)
  else if n < 0 then (some brk, min brk (Sys.u64 (brk + n)))
  else (some brk, brk)

/-- `sbrk`, for `nu` units. -/
def sbrk (nu : ℕ) (n : ℤ) : HeapM (Option ℕ) := fun s =>
  let r := kernelSbrk (s.refuse s.calls) s.limit s.brk n
  .ok r.1 { s with
    brk := r.2
    calls := s.calls + 1
    hist := { s.hist with
      got := if s.brk < r.2 then (s.brk, r.2 - s.brk) :: s.hist.got else s.hist.got
      requests := (nu, n) :: s.hist.requests } }

/-! ## The allocator -/

/-- More rounds than any loop over the ring makes: all its headers lie below the break. -/
def rounds (s : State) : ℕ := 2 * s.brk + 4

/-- The loop of `free`: the free block after which the block at `bp` belongs. -/
def place (bp : ℕ) : ℕ → ℕ → HeapM ℕ
  | 0, _ => Seq.stuck
  | fuel + 1, p => do
    let h ← header p
    if bp > p ∧ bp < h.ptr then return p
    else if p ≥ h.ptr ∧ (bp > p ∨ bp < h.ptr) then return p
    else place bp fuel h.ptr

/-- The part of `free` that joins the block with the one above, or points it there. -/
def joinUpper (bp p : ℕ) : HeapM Unit := do
  let h ← header p
  let b ← header bp
  if bp + headerSize * b.size = h.ptr then
    let q ← header h.ptr
    setSize bp ((b.size + q.size) % 2 ^ 32)
    setPtr bp q.ptr
  else setPtr bp h.ptr

/-- The part of `free` that joins the block with the one below, or points that one to it. -/
def joinLower (bp p : ℕ) : HeapM Unit := do
  let h ← header p
  if p + headerSize * h.size = bp then
    let b ← header bp
    setSize p ((h.size + b.size) % 2 ^ 32)
    setPtr p b.ptr
  else setPtr p bp

/-- `free`. -/
def free (ap : ℕ) : HeapM Unit := do
  let s ← Seq.gets id
  let bp := ap - headerSize
  let p ← place bp (rounds s) s.freep
  joinUpper bp p
  joinLower bp p
  Seq.modify fun s => { s with freep := p }

/-- `morecore`. -/
def morecore (nu : ℕ) : HeapM ℕ := do
  let nu := if nu < 4096 then 4096 else nu
  match ← sbrk nu (toInt (nu * headerSize)) with
  | none => return 0
  | some p => do
    setSize p nu
    free (p + headerSize)
    Seq.gets (·.freep)

/-- The part of `malloc` that takes `nunits` units from the block at `p`, at its end. -/
def take (nunits prevp p : ℕ) : HeapM ℕ := do
  let h ← header p
  if h.size = nunits then
    setPtr prevp h.ptr
    Seq.modify fun s => { s with freep := prevp }
    return p + headerSize
  else
    setSize p (h.size - nunits)
    let q := p + headerSize * (h.size - nunits)
    setSize q nunits
    Seq.modify fun s => { s with freep := prevp }
    return q + headerSize

/-- The loop of `malloc`. -/
def mallocLoop (nunits : ℕ) : ℕ → ℕ → ℕ → HeapM ℕ
  | 0, _, _ => Seq.stuck
  | fuel + 1, prevp, p => do
    let h ← header p
    if h.size ≥ nunits then take nunits prevp p
    else do
      let freep ← Seq.gets (·.freep)
      if p = freep then
        let p ← morecore nunits
        if p = 0 then return 0
        else do
          let h ← header p
          mallocLoop nunits fuel p h.ptr
      else mallocLoop nunits fuel p h.ptr

/-- `nunits` of `malloc`. -/
def units (nbytes : ℕ) : ℕ := ((nbytes + headerSize - 1) / headerSize + 1) % 2 ^ 32

/-- The ring when it is used for the first time. -/
def initRing : HeapM Unit := do
  let s ← Seq.gets id
  if s.freep = 0 then
    setPtr s.base s.base
    Seq.modify fun s => { s with freep := s.base }
    setSize s.base 0

/-- `malloc`. -/
def malloc (nbytes : ℕ) : HeapM ℕ := do
  initRing
  let s ← Seq.gets id
  let h ← header s.freep
  mallocLoop (units nbytes) (rounds s) s.freep h.ptr

/-! ## Programs -/

/-- What a program does with the heap: it calls the allocator and writes into its blocks. -/
inductive Call
  | malloc (nbytes : ℕ)
  | free (ap : ℕ)
  | write (hdr : ℕ → Header)

/-- A call, noted in the history. -/
def Call.run : Call → HeapM ℕ
  | .malloc nbytes => do
    let r ← Heap.malloc nbytes
    if r ≠ 0 then
      Seq.modify fun s => { s with hist := { s.hist with
        live := ⟨r - headerSize, units nbytes⟩ :: s.hist.live
        asked := Function.update s.hist.asked (r - headerSize) nbytes } }
    return r
  | .free ap => do
    Heap.free ap
    Seq.modify fun s => { s with hist := { s.hist with
      live := s.hist.live.filter fun b => b.addr ≠ ap - headerSize } }
    return 0
  | .write hdr => do
    Seq.modify fun s => { s with hdr := hdr }
    return 0

/-- The calls of a correct program: it asks for less than 2 ^ 27 units, frees only what it has
allocated and not freed yet, and writes only into its blocks. -/
def Call.Allowed (s : State) : Call → Prop
  | .malloc nbytes => nbytes < 2 ^ 32 ∧ units nbytes < 2 ^ 27
  | .free ap => ∃ b ∈ s.hist.live, ap = b.addr + headerSize
  | .write hdr => ∀ a, (∀ b ∈ s.hist.live, a ≤ b.addr ∨ b.stop ≤ a) → hdr a = s.hdr a

/-- The start of a program. -/
structure Start (s : State) : Prop where
  /-- `base` is not at address 0. -/
  base_pos : 0 < s.base
  /-- It lies below the break. -/
  base_le : s.base + headerSize ≤ s.brk
  /-- The break is aligned. -/
  aligned : s.brk % headerSize = 0
  /-- The program ends within the address space. -/
  brk_le : s.brk ≤ s.limit
  /-- So does every break that the kernel grants. -/
  limit_le : s.limit ≤ trapframeVa
  /-- The ring is not used yet. -/
  freep : s.freep = 0
  /-- Nothing has been handed out. -/
  live : s.hist.live = []
  /-- Nothing has been obtained. -/
  got : s.hist.got = []

end RiscvKernel.Heap
