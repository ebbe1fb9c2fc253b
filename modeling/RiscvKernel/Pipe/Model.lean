import RiscvKernel.Lib.Threads
import RiscvKernel.Lib.Ring

/-!
# Pipes

The functions of `pipe.c` that run on an open pipe. Each of them is one critical section
of `pi->lock`, which a sleeping call leaves and enters again: the kernel has a single CPU
and a process that holds a spinlock is not preempted. Which user bytes `copyin` and
`copyout` can reach is a parameter of each call, byte by byte.

The history records what the processes have done to the pipe; no function reads it.
-/

namespace RiscvKernel

open Threads Function

/-- The size of the ring, `PIPESIZE`. -/
def pipesize : ℕ := 512

/-- The fields of `struct pipe` that `pi->lock` protects. -/
structure Pipe where
  /-- The ring. -/
  data : ℕ → UInt8
  /-- Number of bytes read, modulo `2 ^ 32`. -/
  nread : UInt32
  /-- Number of bytes written, modulo `2 ^ 32`. -/
  nwrite : UInt32
  /-- The read end is still open. -/
  readopen : Bool
  /-- The write end is still open. -/
  writeopen : Bool

namespace Pipe

/-- `pi->nread == pi->nwrite`. -/
abbrev Empty (pi : Pipe) : Prop := pi.nread = pi.nwrite

/-- `pi->nwrite == pi->nread + PIPESIZE`. -/
abbrev Full (pi : Pipe) : Prop := pi.nwrite = pi.nread + UInt32.ofNat pipesize

/-- `nwrite - nread` modulo `2 ^ 32`. -/
def used (pi : Pipe) : ℕ := Ring.used (2 ^ 32) pi.nread.toNat pi.nwrite.toNat

/-- The bytes in the ring, oldest first. -/
def contents (pi : Pipe) : List UInt8 :=
  Ring.contents pipesize pi.data pi.nread.toNat pi.used

/-- `pi->data[pi->nwrite++ % PIPESIZE] = ch`. -/
def store (pi : Pipe) (ch : UInt8) : Pipe :=
  { pi with
    data := update pi.data (pi.nwrite.toNat % pipesize) ch
    nwrite := pi.nwrite + 1 }

/-- `pi->data[pi->nread % PIPESIZE]`. -/
def front (pi : Pipe) : UInt8 := pi.data (pi.nread.toNat % pipesize)

/-- `pi->nread++`. -/
def advance (pi : Pipe) : Pipe := { pi with nread := pi.nread + 1 }

end Pipe

/-- The channels that readers and writers sleep on. -/
inductive PipeChan
  | nread
  | nwrite
deriving DecidableEq, Repr

/-- The two calls that move bytes. -/
inductive PipeOp
  | read
  | write
deriving DecidableEq, Repr

/-- A call that has returned. -/
structure PipeReturn where
  /-- Which call it was. -/
  op : PipeOp
  /-- Its byte count argument. -/
  n : ℤ
  /-- What it returned. -/
  result : ℤ
  /-- How many bytes it stored or consumed. -/
  moved : ℕ
  /-- The ring was empty and the write end closed when it returned. -/
  drained : Bool
deriving DecidableEq, Repr

/-- What the processes have done to the pipe. -/
structure PipeHistory (P : Type) where
  /-- The bytes ever stored. -/
  stored : List UInt8
  /-- The bytes ever copied out to a reader. -/
  delivered : List UInt8
  /-- The bytes that the current call of a process has moved. -/
  moved : P → ℕ
  /-- The calls that have returned. -/
  returns : List PipeReturn

/-- A pipe, which processes have been killed, and the history. -/
structure PipeState (P : Type) where
  /-- The pipe. -/
  pipe : Pipe
  /-- The page of the pipe has been given back. -/
  freed : Bool
  /-- `p->killed` of each process. -/
  killed : P → Bool
  /-- The history. -/
  hist : PipeHistory P

/-- Programs over a pipe. -/
abbrev PipeProg (P : Type) := Prog P (PipeState P) PipeChan

variable {P : Type} [DecidableEq P]

namespace PipeState

/-- Start counting the bytes of a call of `p`. -/
def start (s : PipeState P) (p : P) : PipeState P :=
  { s with hist := { s.hist with moved := update s.hist.moved p 0 } }

omit [DecidableEq P] in
/-- Note that a call of `p` returns `r`. -/
def note (s : PipeState P) (p : P) (op : PipeOp) (n r : ℤ) : PipeState P :=
  let ret : PipeReturn := {
    op := op, n := n, result := r, moved := s.hist.moved p
    drained := decide (s.pipe.Empty ∧ s.pipe.writeopen = false) }
  { s with hist := { s.hist with returns := ret :: s.hist.returns } }

/-- Process `p` stores a byte. -/
def store (s : PipeState P) (p : P) (ch : UInt8) : PipeState P :=
  { s with
    pipe := s.pipe.store ch
    hist := { s.hist with
      stored := s.hist.stored ++ [ch]
      moved := update s.hist.moved p (s.hist.moved p + 1) } }

/-- Process `p` has the oldest byte copied out and consumes it. -/
def take (s : PipeState P) (p : P) : PipeState P :=
  { s with
    pipe := s.pipe.advance
    hist := { s.hist with
      delivered := s.hist.delivered ++ [s.pipe.front]
      moved := update s.hist.moved p (s.hist.moved p + 1) } }

end PipeState

/-- The loop of `pipewrite` with `left` bytes to go, at byte `i`. `src i` is what `copyin`
delivers for byte `i`. -/
def pipewriteLoop (src : ℕ → Option UInt8) (n : ℤ) (p : P) :
    ℕ → ℕ → PipeState P → Result (PipeState P) PipeChan ℕ ℤ
  | 0, i, s => .done i (s.note p .write n i) [.nread]
  | left + 1, i, s =>
    if s.pipe.readopen = false ∨ s.killed p = true then
      .done (-1) (s.note p .write n (-1)) []
    else if s.pipe.Full then .sleep .nwrite i s [.nread]
    else match src i with
      | none => .done i (s.note p .write n i) [.nread]
      | some ch => pipewriteLoop src n p left (i + 1) (s.store p ch)

/-- `pipewrite`: store the bytes of the user buffer, sleeping while the ring is full. A pipe
whose page has been given back is out of reach, since no file refers to it. -/
def pipewrite (src : ℕ → Option UInt8) (n : ℤ) : PipeProg P ℤ := do
  Prog.update fun p s => ((), s.start p)
  Prog.act 0 (fun i p s =>
    if s.freed then .block else pipewriteLoop src n p (n.toNat - i) i s) .ret

/-- The copy loop of `piperead` with `left` bytes to go, at byte `i`. `dst i` tells whether
`copyout` can store byte `i`. -/
def pipereadLoop (dst : ℕ → Bool) (p : P) : ℕ → ℕ → PipeState P → ℤ × PipeState P
  | 0, i, s => (i, s)
  | left + 1, i, s =>
    if s.pipe.Empty then (i, s)
    else if dst i = false then (if i = 0 then -1 else i, s)
    else pipereadLoop dst p left (i + 1) (s.take p)

/-- One critical section of `piperead`. -/
def pipereadSection (dst : ℕ → Bool) (n : ℤ) (p : P) (s : PipeState P) :
    Result (PipeState P) PipeChan Unit ℤ :=
  if s.pipe.Empty ∧ s.pipe.writeopen = true then
    if s.killed p = true then .done (-1) (s.note p .read n (-1)) []
    else .sleep .nread () s []
  else
    let r := pipereadLoop dst p n.toNat 0 s
    .done r.1 (r.2.note p .read n r.1) [.nwrite]

/-- `piperead`: copy bytes to the user buffer, sleeping while the ring is empty and a writer
is left. -/
def piperead (dst : ℕ → Bool) (n : ℤ) : PipeProg P ℤ := do
  Prog.update fun p s => ((), s.start p)
  Prog.act () (fun _ p s => if s.freed then .block else pipereadSection dst n p s) .ret

omit [DecidableEq P] in
/-- `pipeclose`: close one end, wake the other, and free the page after both. -/
def pipeclose (writable : Bool) : PipeProg P Unit :=
  Prog.step fun _ s =>
    if s.freed then .block
    else
      let pi := if writable then { s.pipe with writeopen := false }
        else { s.pipe with readopen := false }
      let freed := decide (pi.readopen = false ∧ pi.writeopen = false)
      .done () { s with pipe := pi, freed := freed } [if writable then .nread else .nwrite]

/-- `kkill`: mark the victim. That it also wakes up is a step of its own. -/
def kkillPipe (victim : P) : PipeProg P Unit :=
  Prog.update fun _ s => ((), { s with killed := update s.killed victim true })

/-- The calls that processes make on the pipe. -/
inductive PipeCall (p : P) (s : PipeState P) : PipeProg P Unit → Prop
  | pipewrite (src : ℕ → Option UInt8) (n : ℤ) :
      PipeCall p s (RiscvKernel.pipewrite src n >>= fun _ => return ())
  | piperead (dst : ℕ → Bool) (n : ℤ) :
      PipeCall p s (RiscvKernel.piperead dst n >>= fun _ => return ())
  | pipeclose (writable : Bool) : PipeCall p s (RiscvKernel.pipeclose writable)
  | kkill (victim : P) : PipeCall p s (kkillPipe victim)

omit [DecidableEq P] in
/-- The state that `pipealloc` leaves: both ends open, nothing moved. The ring holds whatever
the page held. -/
structure PipeStart (s : PipeState P) : Prop where
  /-- The read end is open. -/
  readopen : s.pipe.readopen = true
  /-- The write end is open. -/
  writeopen : s.pipe.writeopen = true
  /-- Nothing has been read. -/
  nread : s.pipe.nread = 0
  /-- Nothing has been written. -/
  nwrite : s.pipe.nwrite = 0
  /-- No byte has been stored. -/
  stored : s.hist.stored = []
  /-- No byte has been delivered. -/
  delivered : s.hist.delivered = []
  /-- No call has returned. -/
  returns : s.hist.returns = []

end RiscvKernel
