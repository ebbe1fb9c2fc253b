import Mathlib.Logic.Function.Basic
import Mathlib.Data.Finset.Card
import Mathlib.Data.Finset.Filter
import Mathlib.Data.Finset.Range
import RiscvKernel.Block
import RiscvKernel.Lib.Ring

/-!
# The virtio disk driver and its device

The driver of `virtio_disk.c` as a state machine of three kinds of parties: the processes
inside `virtio_disk_rw`, the interrupt handler, and the device. `disk.vdisk_lock` is part
of the state, because the device does not take it: device steps fall between any two steps
of its holder. A step of the driver is what its code does between two points at which the
device can see or change something the code depends on.
-/

namespace RiscvKernel.Virtio

open Function

/-- `NUM`, the number of descriptors and of ring entries. -/
def num : ℕ := 8

/-- `VRING_DESC_F_NEXT`. -/
def vringDescFNext : ℕ := 1

/-- `VRING_DESC_F_WRITE`. -/
def vringDescFWrite : ℕ := 2

/-- `VIRTIO_BLK_T_IN`, reading the disk. -/
def virtioBlkTIn : ℕ := 0

/-- `VIRTIO_BLK_T_OUT`, writing the disk. -/
def virtioBlkTOut : ℕ := 1

/-- The size of `struct virtio_blk_req`. -/
def blkReqSize : ℕ := 16

/-- The number of values of a 16-bit index. -/
def idxMod : ℕ := 2 ^ 16

/-- What the `addr` of a descriptor points to. -/
inductive Addr (B : Type) : Type
  | null
  | op (i : ℕ)
  | data (b : B)
  | status (i : ℕ)
  deriving DecidableEq

/-- `struct virtq_desc`. -/
structure Desc (B : Type) where
  addr : Addr B
  len : ℕ
  flags : ℕ
  next : ℕ
  deriving DecidableEq

/-- The descriptor after `memset` or `free_desc`. -/
def Desc.zero {B : Type} : Desc B := ⟨.null, 0, 0, 0⟩

/-- Whether the chain goes on after a descriptor. -/
def Desc.hasNext {B : Type} (d : Desc B) : Bool := d.flags &&& vringDescFNext != 0

/-- `struct virtio_blk_req`. -/
structure BlkReq where
  type : ℕ
  reserved : ℕ
  sector : ℕ
  deriving DecidableEq

/-- An entry of `disk.info`. -/
structure Info (B : Type) where
  b : Option B
  status : ℕ

/-- `struct virtq_avail`. -/
structure Avail where
  idx : ℕ
  ring : ℕ → ℕ

/-- `struct virtq_used`; of an entry only the id is read. -/
structure Used where
  idx : ℕ
  ring : ℕ → ℕ

/-- The indices `idx[0..2]` of the three descriptors of a request. -/
structure Triple where
  head : ℕ
  body : ℕ
  tail : ℕ
  deriving DecidableEq

/-- The descriptors of a triple. -/
def Triple.toList (x : Triple) : List ℕ := [x.head, x.body, x.tail]

/-- A call of `virtio_disk_rw`. The ticket numbers the calls and exists for the proofs. -/
structure Request (B : Type) where
  b : B
  write : Bool
  ticket : ℕ
  deriving DecidableEq

/-- How far a process is in `virtio_disk_rw`: before it has descriptors, with a formatted
chain that the device does not know of yet, or waiting for the device. -/
inductive Pc (B : Type) : Type
  | outside
  | enter (r : Request B)
  | publish (r : Request B) (x : Triple)
  | wait (r : Request B) (x : Triple)
  deriving DecidableEq

/-- The call a process is in. -/
def Pc.request {B : Type} : Pc B → Option (Request B)
  | outside => none
  | enter r => some r
  | publish r _ => some r
  | wait r _ => some r

/-- The request in flight of a process, with its descriptors. -/
def Pc.flight {B : Type} : Pc B → Option (Request B × Triple)
  | outside => none
  | enter _ => none
  | publish r x => some (r, x)
  | wait r x => some (r, x)

/-- The channels of the driver: `&disk.free[0]` and the buffers. -/
inductive Chan (B : Type) : Type
  | free
  | buf (b : B)
  deriving DecidableEq

/-- The possible holders of `disk.vdisk_lock`. -/
inductive Agent (P : Type) : Type
  | proc (p : P)
  | intr
  deriving DecidableEq

/-- What the device did for one chain, as it found it in the descriptors: the request
block, the address of the data and whether the device was to write it. -/
structure Completion (B : Type) where
  ticket : ℕ
  op : Option BlkReq
  data : Addr B
  deviceWrites : Bool
  deriving DecidableEq

/-- The device: how many entries of the avail ring it has taken, modulo `2^16`, and the
chains it works on. -/
structure Device where
  seen : ℕ
  outstanding : List ℕ

/-- Ghost state: the number of calls so far, the call that formatted a chain head last,
what the device has completed, and the calls that have returned. -/
structure History (B : Type) where
  calls : ℕ
  ticket : ℕ → ℕ
  completed : List (Completion B)
  returned : List (Request B)

/-- The driver, its processes and the device. -/
structure State (P B : Type) where
  free : ℕ → Bool
  desc : ℕ → Desc B
  ops : ℕ → BlkReq
  info : ℕ → Info B
  avail : Avail
  used : Used
  usedIdx : ℕ
  onDisk : B → Bool
  lock : Option (Agent P)
  pc : P → Pc B
  asleep : P → Option (Chan B)
  dev : Device
  hist : History B
  panicked : Option String

variable {P B : Type} [DecidableEq P] [DecidableEq B]

/-- The state that `virtio_disk_init` leaves. -/
def State.init : State P B where
  free := fun _ => true
  desc := fun _ => .zero
  ops := fun _ => ⟨0, 0, 0⟩
  info := fun _ => ⟨none, 0⟩
  avail := ⟨0, fun _ => 0⟩
  used := ⟨0, fun _ => 0⟩
  usedIdx := 0
  onDisk := fun _ => false
  lock := none
  pc := fun _ => .outside
  asleep := fun _ => none
  dev := ⟨0, []⟩
  hist := ⟨0, fun _ => 0, [], []⟩
  panicked := none

/-! ### The functions of the driver -/

/-- `wakeup(chan)`. Its caller holds the lock that every sleeper on the channel gave up,
so no process is on its way to sleep meanwhile. -/
def wakeup (c : Chan B) (s : State P B) : State P B :=
  { s with asleep := fun p => if s.asleep p = some c then none else s.asleep p }

/-- `alloc_desc`: the first free descriptor, marked as used. -/
def allocDesc (s : State P B) : Option (ℕ × State P B) :=
  ((List.range num).find? s.free).map fun i =>
    (i, { s with free := update s.free i false })

/-- `free_desc`. -/
def freeDesc (i : ℕ) (s : State P B) : Except String (State P B) :=
  if num ≤ i then .error "free_desc 1"
  else if s.free i then .error "free_desc 2"
  else .ok (wakeup .free { s with
    desc := update s.desc i .zero
    free := update s.free i true })

/-- `free_chain`. Every round frees a descriptor or panics, so the loop makes at most
`NUM + 1` rounds, which is the fuel it is run with. -/
def freeChain : ℕ → ℕ → State P B → Except String (State P B)
  | 0, _, _ => .error "free_chain"
  | fuel + 1, i, s => do
    let d := s.desc i
    let s ← freeDesc i s
    if d.hasNext then freeChain fuel d.next s else return s

/-- `alloc3_desc`, its loop of three rounds written out. A round that finds no free
descriptor gives back those of the earlier rounds. -/
def alloc3Desc (s : State P B) : Except String (Option Triple × State P B) :=
  match allocDesc s with
  | none => .ok (none, s)
  | some (i, s) =>
    match allocDesc s with
    | none => do
      let s ← freeDesc i s
      return (none, s)
    | some (j, s) =>
      match allocDesc s with
      | none => do
        let s ← freeDesc i s
        let s ← freeDesc j s
        return (none, s)
      | some (k, s) => .ok (some ⟨i, j, k⟩, s)

/-- The request block that a call writes into `disk.ops`. The sector is computed from the
32-bit `blockno` before it is widened. -/
def Request.blkReq (blockno : B → ℕ) (r : Request B) : BlkReq where
  type := if r.write then virtioBlkTOut else virtioBlkTIn
  reserved := 0
  sector := blockno r.b * (bsize / 512) % 2 ^ 32

/-- The first descriptor of a chain. -/
def headDesc (x : Triple) : Desc B := ⟨.op x.head, blkReqSize, vringDescFNext, x.body⟩

/-- The second descriptor of a chain. -/
def bodyDesc (r : Request B) (x : Triple) : Desc B :=
  ⟨.data r.b, bsize, (if r.write then 0 else vringDescFWrite) ||| vringDescFNext, x.tail⟩

/-- The third descriptor of a chain. -/
def tailDesc (x : Triple) : Desc B := ⟨.status x.head, 1, vringDescFWrite, 0⟩

/-- The part of `virtio_disk_rw` from the formatting of the descriptors to the store into
the avail ring. The device reads none of it before `avail->idx` is incremented. -/
def format (blockno : B → ℕ) (r : Request B) (x : Triple) (s : State P B) : State P B :=
  { s with
    ops := update s.ops x.head (r.blkReq blockno)
    desc := update (update (update s.desc
      x.head (headDesc x)) x.body (bodyDesc r x)) x.tail (tailDesc x)
    info := update s.info x.head ⟨some r.b, 0xff⟩
    onDisk := update s.onDisk r.b true
    avail := { s.avail with ring := update s.avail.ring (s.avail.idx % num) x.head }
    hist := { s.hist with ticket := update s.hist.ticket x.head r.ticket } }

/-- A panic stops the machine in the state the function was called in. -/
def orPanic (s : State P B) : Except String (State P B) → State P B
  | .ok s' => s'
  | .error msg => { s with panicked := some msg }

/-- `virtio_disk_rw` from `acquire` or from a wakeup on `&disk.free[0]`: take the lock and
try for three descriptors; format the chain and keep the lock, or sleep, which gives it
up. -/
def rwAlloc (blockno : B → ℕ) (p : P) (r : Request B) (s : State P B) :
    Except String (State P B) := do
  match ← alloc3Desc s with
  | (some x, s) =>
    let s := format blockno r x s
    return { s with lock := some (.proc p), pc := update s.pc p (.publish r x) }
  | (none, s) => return { s with asleep := update s.asleep p (some .free) }

/-- The increment of `avail->idx`, a 16-bit index, which shows the chain to the device. -/
def rwPublish (p : P) (r : Request B) (x : Triple) (s : State P B) : State P B :=
  { s with
    avail := { s.avail with idx := (s.avail.idx + 1) % idxMod }
    pc := update s.pc p (.wait r x) }

/-- One test of the loop that waits for `b->disk` to become 0, and what follows the loop.
Sleeping and returning both give up the lock. -/
def rwWait (p : P) (r : Request B) (x : Triple) (s : State P B) : Except String (State P B) :=
  if s.onDisk r.b then
    .ok { s with lock := none, asleep := update s.asleep p (some (.buf r.b)) }
  else do
    let s := { s with info := update s.info x.head { s.info x.head with b := none } }
    let s ← freeChain (num + 1) x.head s
    return { s with
      lock := none
      pc := update s.pc p .outside
      hist := { s.hist with returned := s.hist.returned ++ [r] } }

/-- One test of the loop of `virtio_disk_intr` and its body; when the indices agree the
lock is released. A null `info[id].b` is dereferenced. -/
def intrLoop (s : State P B) : Except String (State P B) :=
  if s.usedIdx = s.used.idx then .ok { s with lock := none }
  else
    let id := s.used.ring (s.usedIdx % num)
    if (s.info id).status ≠ 0 then .error "virtio_disk_intr status"
    else match (s.info id).b with
      | none => .error "kerneltrap"
      | some b => .ok (wakeup (.buf b) { s with
          onDisk := update s.onDisk b false
          usedIdx := (s.usedIdx + 1) % idxMod })

/-! ### The device -/

/-- The device takes the next chain head from the avail ring. -/
def devTake (s : State P B) : State P B :=
  { s with dev :=
    ⟨(s.dev.seen + 1) % idxMod, s.avail.ring (s.dev.seen % num) :: s.dev.outstanding⟩ }

/-- What the device reads from the chain that starts at a descriptor. -/
def chainWork (s : State P B) (h : ℕ) : Completion B where
  ticket := s.hist.ticket h
  op := match (s.desc h).addr with
    | .op i => some (s.ops i)
    | _ => none
  data := (s.desc (s.desc h).next).addr
  deviceWrites := (s.desc (s.desc h).next).flags &&& vringDescFWrite != 0

/-- The status byte 0 written through the third descriptor of a chain. -/
def writeStatus (s : State P B) (h : ℕ) : ℕ → Info B :=
  match (s.desc (s.desc (s.desc h).next).next).addr with
  | .status i => update s.info i { s.info i with status := 0 }
  | _ => s.info

/-- The device finishes a chain: it performs the request, writes the status and adds an
entry to the used ring. -/
def devComplete (h : ℕ) (s : State P B) : State P B :=
  { s with
    info := writeStatus s h
    used := ⟨(s.used.idx + 1) % idxMod, update s.used.ring (s.used.idx % num) h⟩
    dev := { s.dev with outstanding := s.dev.outstanding.erase h }
    hist := { s.hist with completed := s.hist.completed ++ [chainWork s h] } }

/-! ### Runs -/

/-- The steps of the system. -/
inductive Act (P B : Type) : Type
  | call (p : P) (b : B) (write : Bool)
  | alloc (p : P)
  | publish (p : P)
  | wait (p : P)
  | intrEnter
  | intrLoop
  | take
  | complete (h : ℕ)
  | wake (p : P)

/-- One step. A call needs a buffer that no other call works on, which is what the
sleep-lock of the buffer gives; the interrupt handler may be entered at any time; `wake`
is a wakeup that has nothing to do with the driver, such as the one in `kkill`. -/
inductive Step (blockno : B → ℕ) : Act P B → State P B → State P B → Prop
  | call {s : State P B} {p : P} {b : B} {write : Bool} (hrun : s.panicked = none)
      (hpc : s.pc p = .outside) (hb : ∀ q r, (s.pc q).request = some r → r.b ≠ b) :
      Step blockno (.call p b write) s { s with
        pc := update s.pc p (.enter ⟨b, write, s.hist.calls⟩)
        hist := { s.hist with calls := s.hist.calls + 1 } }
  | alloc {s : State P B} {p : P} {r : Request B} (hrun : s.panicked = none)
      (hpc : s.pc p = .enter r) (hawake : s.asleep p = none) (hlock : s.lock = none) :
      Step blockno (.alloc p) s (orPanic s (rwAlloc blockno p r s))
  | publish {s : State P B} {p : P} {r : Request B} {x : Triple} (hrun : s.panicked = none)
      (hpc : s.pc p = .publish r x) :
      Step blockno (.publish p) s (rwPublish p r x s)
  | wait {s : State P B} {p : P} {r : Request B} {x : Triple} (hrun : s.panicked = none)
      (hpc : s.pc p = .wait r x) (hawake : s.asleep p = none)
      (hlock : s.lock = none ∨ s.lock = some (.proc p)) :
      Step blockno (.wait p) s (orPanic s (rwWait p r x s))
  | intrEnter {s : State P B} (hrun : s.panicked = none) (hlock : s.lock = none) :
      Step blockno .intrEnter s { s with lock := some .intr }
  | intrLoop {s : State P B} (hrun : s.panicked = none) (hlock : s.lock = some .intr) :
      Step blockno .intrLoop s (orPanic s (intrLoop s))
  | take {s : State P B} (hrun : s.panicked = none) (hnew : s.dev.seen ≠ s.avail.idx) :
      Step blockno .take s (devTake s)
  | complete {s : State P B} {h : ℕ} (hrun : s.panicked = none)
      (hh : h ∈ s.dev.outstanding) : Step blockno (.complete h) s (devComplete h s)
  | wake {s : State P B} {p : P} (hrun : s.panicked = none) :
      Step blockno (.wake p) s { s with asleep := update s.asleep p none }

/-- The states of all runs. -/
inductive Reachable (blockno : B → ℕ) : State P B → Prop
  | init : Reachable blockno .init
  | step {a : Act P B} {s s' : State P B} (hs : Reachable blockno s)
      (h : Step blockno a s s') : Reachable blockno s'

/-- The entries of the avail ring that the device has not taken, oldest first. -/
def State.unreadAvail (s : State P B) : List ℕ :=
  Ring.contents num s.avail.ring s.dev.seen (Ring.used idxMod s.dev.seen s.avail.idx)

/-- The entries of the used ring that the driver has not processed, oldest first. -/
def State.unreadUsed (s : State P B) : List ℕ :=
  Ring.contents num s.used.ring s.usedIdx (Ring.used idxMod s.usedIdx s.used.idx)

/-- The number of free descriptors. -/
def State.freeCount (s : State P B) : ℕ :=
  (Finset.filter (fun i => s.free i = true) (Finset.range num)).card

end RiscvKernel.Virtio
