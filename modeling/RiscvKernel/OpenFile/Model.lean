import RiscvKernel.Kernel.Syscalls
import RiscvKernel.Pipe.Model

/-!
# An open file and its sharers

After `dup` and `fork` several processes share one `struct file`. The functions `fileread` and
`filewrite` of `file.c` on such a file, of any kind: each part that runs with the inode locked,
or with the pipe locked, is one section. What `begin_op` and `end_op` do does not concern the
file. The user memory of each process is part of the state.

The history records what the calls have done; no function reads it.
-/

namespace RiscvKernel.OpenFile

open Threads Function

/-- The type of an open file. -/
inductive FileType
  | none
  | pipe
  | inode
  | device
  deriving DecidableEq

/-- `struct file`, without the reference count. -/
structure File where
  /-- File type. -/
  type : FileType
  /-- May the file be read? -/
  readable : Bool
  /-- May the file be written? -/
  writable : Bool
  /-- The inode. -/
  ip : InodeId
  /-- Offset. -/
  off : ℕ
  /-- Device number. -/
  major : BitVec 16

/-- What one `readi` or `writei` has moved. -/
structure Chunk where
  /-- The offset in the file. -/
  off : ℕ
  /-- The offset in the buffer of the caller. -/
  buf : ℕ
  /-- How many bytes. -/
  len : ℕ

/-- The two calls. -/
inductive Op
  | read
  | write
  deriving DecidableEq

/-- A call that has returned. -/
structure Return where
  /-- Which call it was. -/
  op : Op
  /-- The byte count. -/
  n : ℤ
  /-- What it returned. -/
  result : ℤ
  /-- What it has moved. -/
  chunks : List Chunk

/-- What the processes have done to the file. -/
structure History (P : Type) where
  /-- What has been moved so far, in order. -/
  chunks : List Chunk
  /-- What the current call of a process has moved, in order. -/
  current : P → List Chunk
  /-- The calls that have returned. -/
  returns : List Return

/-- The open file, and what its sharers reach through it. -/
structure State (P : Type) where
  /-- The file. -/
  file : File
  /-- The file system. -/
  fs : Fs
  /-- The pipe, if the file is an end of one. -/
  pipe : PipeState P
  /-- The user memory. -/
  mem : P → Mem
  /-- The history. -/
  hist : History P

/-- Programs over an open file. -/
abbrev FileProg (P : Type) := Prog P (State P) PipeChan

variable {P : Type} [DecidableEq P]

namespace State

/-- A call of `p` begins. -/
def start (s : State P) (p : P) : State P :=
  { s with hist := { s.hist with current := update s.hist.current p [] } }

omit [DecidableEq P] in
/-- A call of `p` returns `r`. -/
def finish (s : State P) (p : P) (op : Op) (n r : ℤ) : State P :=
  { s with hist := { s.hist with returns := ⟨op, n, r, s.hist.current p⟩ :: s.hist.returns } }

/-- `if((r = …) > 0) f->off += r`, for a part of the buffer that starts at `buf`. -/
def advance (s : State P) (p : P) (buf : ℕ) (r : ℤ) : State P :=
  if 0 < r then
    let off := (s.file.off + r.toNat) % 2 ^ 32
    let chunk : Chunk := ⟨s.file.off, buf, r.toNat⟩
    { s with
      file := { s.file with off := off }
      hist := { s.hist with
        chunks := s.hist.chunks ++ [chunk]
        current := update s.hist.current p (s.hist.current p ++ [chunk]) } }
  else s

/-- The pipe has delivered bytes to `p`; `copyout` has stored them from `addr` on. -/
def deliver (s : State P) (p : P) (addr : ℕ) (pipe : PipeState P) : State P :=
  let bytes := pipe.hist.delivered.drop s.pipe.hist.delivered.length
  { s with
    pipe := pipe
    mem := update s.mem p (Bytes.blit (s.mem p) addr bytes.length fun k => bytes.getD k 0) }

end State

/-- The `uint` that an `int` becomes. -/
def uint (n : ℤ) : ℕ := (n % 2 ^ 32).toNat

section Programs

variable (sb : Superblock)

/-- The section of `fileread` between `ilock` and `iunlock`. -/
def readSection (writable : ℕ → Bool) (addr : ℕ) (n : ℤ) (p : P) (s : State P) :
    Result (State P) PipeChan Unit ℤ :=
  if (s.fs.itable s.file.ip).ref < 1 then .panic "ilock"
  else
    match (do
      iload sb s.file.ip
      readi sb s.file.ip (.user writable) addr s.file.off (uint n) (s.mem p)) s.fs with
    | .ok (r, mem) fs =>
      .done r ({ s with fs := fs, mem := update s.mem p mem }.advance p 0 r) []
    | .panic msg _ => .panic msg
    | .stuck _ => .block

/-- `piperead` into user memory. -/
def readPipe (writable : ℕ → Bool) (addr : ℕ) (n : ℤ) : FileProg P ℤ := do
  Prog.update fun p s => ((), { s with pipe := s.pipe.start p })
  Prog.act () (fun _ p s =>
    if s.pipe.freed then .block
    else
      match pipereadSection (fun i => writable ((addr + i) / pgsize)) n p s.pipe with
      | .done r pipe w => .done r (s.deliver p addr pipe) w
      | .sleep c i pipe w => .sleep c i { s with pipe := pipe } w
      | .block => .block
      | .panic msg => .panic msg) .ret

/-- `fileread`. No device has a `read` function: `consoleinit` sets that of the console to 0, and
the other entries of `devsw` are never set. -/
def fileread (writable : ℕ → Bool) (addr : ℕ) (n : ℤ) : FileProg P ℤ := do
  let f ← Prog.read (·.file)
  if f.readable = false then return -1
  else
    match f.type with
    | .pipe => readPipe writable addr n
    | .device => return -1
    | .inode => Prog.step (readSection sb writable addr n)
    | .none => Prog.step fun _ _ => .panic "fileread"

/-- The section of `filewrite` between `ilock` and `iunlock`, for the `n1` bytes of the buffer
from byte `i` on. -/
def writeSection (present : ℕ → Bool) (addr i n1 : ℕ) (p : P) (s : State P) :
    Result (State P) PipeChan Unit ℤ :=
  if (s.fs.itable s.file.ip).ref < 1 then .panic "ilock"
  else
    match (do
      iload sb s.file.ip
      writei sb s.file.ip (.user (s.mem p) present) (addr + i) s.file.off n1) s.fs with
    | .ok r fs => .done r ({ s with fs := fs }.advance p i r) []
    | .panic msg _ => .panic msg
    | .stuck _ => .block

/-- The loop of `filewrite`; it returns `i`. -/
def writeFrom (present : ℕ → Bool) (addr n : ℕ) : ℕ → ℕ → FileProg P ℕ
  | 0, i => return i
  | fuel + 1, i =>
    if i < n then do
      let n1 := min (n - i) maxWrite
      let r ← Prog.step (writeSection sb present addr i n1)
      if r = n1 then writeFrom present addr n fuel (i + n1) else return i
    else return i

/-- `pipewrite` from user memory. -/
def writePipe (present : ℕ → Bool) (addr : ℕ) (n : ℤ) : FileProg P ℤ := do
  Prog.update fun p s => ((), { s with pipe := s.pipe.start p })
  Prog.act 0 (fun i p s =>
    if s.pipe.freed then .block
    else
      let src := fun k => if present ((addr + k) / pgsize) then some (s.mem p (addr + k)) else none
      match pipewriteLoop src n p (n.toNat - i) i s.pipe with
      | .done r pipe w => .done r { s with pipe := pipe } w
      | .sleep c i pipe w => .sleep c i { s with pipe := pipe } w
      | .block => .block
      | .panic msg => .panic msg) .ret

/-- `CONSOLE`, the only device with a `write` function. -/
def console : ℤ := 1

/-- `filewrite`; `dev` is what `consolewrite` returns. -/
def filewrite (present : ℕ → Bool) (addr : ℕ) (n dev : ℤ) : FileProg P ℤ := do
  let f ← Prog.read (·.file)
  if f.writable = false then return -1
  else
    match f.type with
    | .pipe => writePipe present addr n
    | .device => return if f.major.toInt = console then dev else -1
    | .inode => do
      let i ← writeFrom sb present addr n.toNat n.toNat 0
      return if (i : ℤ) = n then n else -1
    | .none => Prog.step fun _ _ => .panic "filewrite"

/-- `sys_read` on a descriptor of the file. -/
def sysRead (writable : ℕ → Bool) (addr : ℕ) (n : ℤ) : FileProg P Unit := do
  Prog.update fun p s => ((), s.start p)
  let r ← fileread sb writable addr n
  Prog.update fun p s => ((), s.finish p .read n r)

/-- `sys_write` on a descriptor of the file. -/
def sysWrite (present : ℕ → Bool) (addr : ℕ) (n dev : ℤ) : FileProg P Unit := do
  Prog.update fun p s => ((), s.start p)
  let r ← filewrite sb present addr n dev
  Prog.update fun p s => ((), s.finish p .write n r)

/-- What processes do with the file: they read and write it, run in user mode, and change the
file system and the pipe in other ways. -/
inductive FileCall (p : P) (s : State P) : FileProg P Unit → Prop
  | read (writable : ℕ → Bool) (addr : ℕ) (n : ℤ) : n < 2 ^ 31 →
      FileCall p s (sysRead sb writable addr n)
  | write (present : ℕ → Bool) (addr : ℕ) (n dev : ℤ) : n < 2 ^ 31 →
      FileCall p s (sysWrite sb present addr n dev)
  | user (mem : Mem) :
      FileCall p s (Prog.update fun p s => ((), { s with mem := update s.mem p mem }))
  | other (fs : Fs) (pipe : PipeState P) :
      FileCall p s (Prog.update fun _ s => ((), { s with fs := fs, pipe := pipe }))

end Programs

omit [DecidableEq P] in
/-- A file that has just been opened, or is shared from now on. -/
structure Start (file : File) (s : State P) : Prop where
  /-- The file. -/
  file : s.file = file
  /-- Nothing has been moved. -/
  chunks : s.hist.chunks = []
  /-- No call is running. -/
  current : ∀ p, s.hist.current p = []
  /-- No call has returned. -/
  returns : s.hist.returns = []

end RiscvKernel.OpenFile
