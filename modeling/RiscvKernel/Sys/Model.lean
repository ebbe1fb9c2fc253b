import RiscvKernel.Kernel.Model
import RiscvKernel.Vm.Model

/-!
# Processes, open files and memory

The functions of `proc.c`, `exec.c`, `file.c`, `pipe.c`, `sysproc.c` and `sysfile.c` that
take and give back pages or references to open files, one call after the other. What the
file system says about a path is a parameter of the calls; the references to inodes are
the subject of `Kernel`.
-/

namespace RiscvKernel.Sys

open Threads Function

/-- `NPROC`, the size of the process table. -/
def nproc : ℕ := 64

/-- An index into `proc`. -/
abbrev ProcId := Fin nproc

/-- `MAXARG`, the number of arguments of `exec`. -/
def maxarg : ℕ := 32

/-- `MAXPATH`, the length of a path. -/
def maxpath : ℕ := 128

/-- `USERSTACK`, the pages of the user stack. -/
def userstack : ℕ := 1

/-- `enum procstate`. -/
inductive ProcState
  | unused
  | used
  | sleeping
  | runnable
  | running
  | zombie
  deriving DecidableEq

/-- `struct proc`. -/
structure Proc where
  /-- Process state. -/
  state : ProcState
  /-- Has the process been killed? -/
  killed : Bool
  /-- Exit status to be returned to the parent. -/
  xstate : ℤ
  /-- Process ID. -/
  pid : ℕ
  /-- Parent process. -/
  parent : Option ProcId
  /-- Size of process memory in bytes. -/
  sz : ℕ
  /-- User page table, or 0. -/
  pagetable : ℕ
  /-- Data page for the trampoline, or 0. -/
  trapframe : ℕ
  /-- Open files. -/
  ofile : Fd → Option FileId

/-- A slot of the process table that has never been used. -/
def Proc.fresh : Proc where
  state := .unused
  killed := false
  xstate := 0
  pid := 0
  parent := none
  sz := 0
  pagetable := 0
  trapframe := 0
  ofile := fun _ => none

/-- The type of an open file. -/
inductive FdType
  | none
  | pipe
  | inode
  | device
  deriving DecidableEq

/-- `struct file`. -/
structure File where
  /-- File type. -/
  type : FdType
  /-- Reference count. -/
  ref : ℤ
  /-- May the file be read? -/
  readable : Bool
  /-- May the file be written? -/
  writable : Bool
  /-- The page of the pipe. -/
  pipe : ℕ
  /-- Offset. -/
  off : ℕ
  /-- Device number. -/
  major : ℤ

/-- An entry of `ftable` that has never been used. -/
def File.fresh : File where
  type := .none
  ref := 0
  readable := false
  writable := false
  pipe := 0
  off := 0
  major := 0

/-- The state of the system. -/
structure State where
  /-- Physical memory. -/
  vm : Vm
  /-- `proc`. -/
  procs : ProcId → Proc
  /-- `initproc`. -/
  initproc : Option ProcId
  /-- `nextpid`, which does not overflow here. -/
  nextpid : ℕ
  /-- `ftable.file`. -/
  files : FileId → File

/-- A program of the system. -/
abbrev SysM := Seq State

/-- Run a program over physical memory. -/
def lift {α : Type} (m : VmM α) : SysM α := fun s =>
  match m s.vm with
  | .ok a vm => .ok a { s with vm := vm }
  | .panic msg vm => .panic msg { s with vm := vm }
  | .stuck vm => .stuck { s with vm := vm }

/-- Read a slot of the process table. -/
def getProc (p : ProcId) : SysM Proc := Seq.gets fun s => s.procs p

/-- Change a slot of the process table. -/
def setProc (p : ProcId) (f : Proc → Proc) : SysM Unit := Seq.modify fun s =>
  { s with procs := update s.procs p (f (s.procs p)) }

/-- Read an entry of `ftable`. -/
def getFile (f : FileId) : SysM File := Seq.gets fun s => s.files f

/-- Change an entry of `ftable`. -/
def setFile (f : FileId) (g : File → File) : SysM Unit := Seq.modify fun s =>
  { s with files := update s.files f (g (s.files f)) }

/-- What `vmfault` reads of a process. -/
def Proc.space (pr : Proc) : UserSpace := ⟨pr.sz, pr.pagetable⟩

/-! ## Open files and pipes -/

/-- `filealloc`. -/
def filealloc : SysM (Option FileId) := do
  match ← Seq.gets fun s => (List.finRange nfile).find? fun f => (s.files f).ref = 0 with
  | none => return none
  | some f => do
    setFile f fun x => { x with ref := 1 }
    return some f

/-- `filedup`. -/
def filedup (f : FileId) : SysM Unit := do
  let x ← getFile f
  if x.ref < 1 then Seq.panic "filedup" else setFile f fun x => { x with ref := x.ref + 1 }

/-- Where `readopen` lies in a `struct pipe`: behind the lock, the buffer and two counters. -/
def readopenOff : ℕ := 24 + 512 + 4 + 4

/-- Where `writeopen` lies in a `struct pipe`. -/
def writeopenOff : ℕ := readopenOff + 4

/-- Where `nread` lies in a `struct pipe`. -/
def nreadOff : ℕ := 24 + 512

/-- Where `nwrite` lies in a `struct pipe`. -/
def nwriteOff : ℕ := nreadOff + 4

/-- Read the 32-bit number at an address. -/
def load32 (a : ℕ) : VmM ℕ := Seq.gets fun s => Bytes.num s.mem a 4

/-- Write the 32-bit number at an address. -/
def store32 (a v : ℕ) : VmM Unit := Seq.modify fun s => s.setMem (Bytes.put s.mem a 4 v)

/-- `pipeclose`. -/
def pipeclose (img : KernelImage) (pi : ℕ) (writable : Bool) : VmM Unit := do
  if writable then store32 (pi + writeopenOff) 0 else store32 (pi + readopenOff) 0
  let readopen ← load32 (pi + readopenOff)
  let writeopen ← load32 (pi + writeopenOff)
  if readopen = 0 ∧ writeopen = 0 then kfree img pi else return ()

/-- `fileclose`. The inode of a closed file is put elsewhere. -/
def fileclose (img : KernelImage) (f : FileId) : SysM Unit := do
  let ff ← getFile f
  if ff.ref < 1 then Seq.panic "fileclose"
  else if ff.ref - 1 > 0 then setFile f fun x => { x with ref := x.ref - 1 }
  else do
    setFile f fun x => { x with ref := 0, type := .none }
    if ff.type = .pipe then lift (pipeclose img ff.pipe ff.writable) else return ()

/-- `pipealloc`: the read end and the write end. -/
def pipealloc (img : KernelImage) : SysM (Option (FileId × FileId)) := do
  match ← filealloc with
  | none => return none
  | some f0 => do
    match ← filealloc with
    | none => do
      fileclose img f0
      return none
    | some f1 => do
      let pi ← lift kalloc
      if pi = 0 then do
        fileclose img f0
        fileclose img f1
        return none
      else do
        lift (store32 (pi + readopenOff) 1)
        lift (store32 (pi + writeopenOff) 1)
        lift (store32 (pi + nwriteOff) 0)
        lift (store32 (pi + nreadOff) 0)
        setFile f0 fun x =>
          { x with type := .pipe, readable := true, writable := false, pipe := pi }
        setFile f1 fun x =>
          { x with type := .pipe, readable := false, writable := true, pipe := pi }
        return some (f0, f1)

/-- `fdalloc`. -/
def fdalloc (p : ProcId) (f : FileId) : SysM (Option Fd) := do
  let pr ← getProc p
  match (List.finRange nofile).find? fun fd => (pr.ofile fd).isNone with
  | none => return none
  | some fd => do
    setProc p fun pr => { pr with ofile := update pr.ofile fd (some f) }
    return some fd

/-- Clear a file descriptor. -/
def clearFd (p : ProcId) (fd : Fd) : SysM Unit :=
  setProc p fun pr => { pr with ofile := update pr.ofile fd none }

/-- `argfd`. -/
def argfd (p : ProcId) (fd : ℤ) : SysM (Option (Fd × FileId)) := do
  let pr ← getProc p
  if h : 0 ≤ fd ∧ fd < nofile then
    let fd : Fd := ⟨fd.toNat, by omega⟩
    return (pr.ofile fd).map fun f => (fd, f)
  else return none

/-- `sys_dup`. -/
def sysDup (p : ProcId) (fd : ℤ) : SysM ℤ := do
  match ← argfd p fd with
  | none => return -1
  | some (_, f) => do
    match ← fdalloc p f with
    | none => return -1
    | some fd => do
      filedup f
      return (fd : ℕ)

/-- `sys_close`. -/
def sysClose (img : KernelImage) (p : ProcId) (fd : ℤ) : SysM ℤ := do
  match ← argfd p fd with
  | none => return -1
  | some (fd, f) => do
    clearFd p fd
    fileclose img f
    return 0

/-- `copyout` for a process into its own memory. -/
def copyoutTo (img : KernelImage) (p : ProcId) (dst : ℕ) (src : ℕ → UInt8) (len : ℕ) : SysM ℤ := do
  let pr ← getProc p
  lift (copyout img pr.space pr.pagetable dst src len)

/-- `copyin` for a process from its own memory. -/
def copyinFor (img : KernelImage) (p : ProcId) (src len : ℕ) : SysM (ℤ × List UInt8) := do
  let pr ← getProc p
  lift (copyin img pr.space pr.pagetable src len)

/-- `copyinstr` for a process from its own memory. -/
def copyinstrFor (p : ProcId) (src max : ℕ) : SysM (Option (List UInt8)) := do
  let pr ← getProc p
  lift (copyinstr pr.pagetable src max)

/-- `sys_pipe`. -/
def sysPipe (img : KernelImage) (p : ProcId) (fdarray : ℕ) : SysM ℤ := do
  match ← pipealloc img with
  | none => return -1
  | some (rf, wf) => do
    match ← fdalloc p rf with
    | none => do
      fileclose img rf
      fileclose img wf
      return -1
    | some fd0 => do
      match ← fdalloc p wf with
      | none => do
        clearFd p fd0
        fileclose img rf
        fileclose img wf
        return -1
      | some fd1 => do
        let r0 ← copyoutTo img p fdarray (Bytes.leByte fd0) 4
        let r1 ← if r0 < 0 then pure (-1)
          else copyoutTo img p ((fdarray + 4) % 2 ^ 64) (Bytes.leByte fd1) 4
        if r1 < 0 then do
          clearFd p fd0
          clearFd p fd1
          fileclose img rf
          fileclose img wf
          return -1
        else return 0

/-- What `sys_open` learns about an inode. -/
structure Opened where
  /-- Is it a device? -/
  device : Bool
  /-- Its device number. -/
  major : ℤ

/-- `sys_open`. The inode that `create` or `namei` finds for a path, and that may be opened in
this mode, is `lookup path`. -/
def sysOpen (img : KernelImage) (p : ProcId) (path : ℕ) (wronly rdwr : Bool)
    (lookup : List UInt8 → Option Opened) : SysM ℤ := do
  match ← copyinstrFor p path maxpath with
  | none => return -1
  | some path => do
    match lookup path with
    | none => return -1
    | some ip => do
      if ip.device ∧ (ip.major < 0 ∨ ip.major ≥ ndev) then return -1
      else do
        match ← filealloc with
        | none => return -1
        | some f => do
          match ← fdalloc p f with
          | none => do
            fileclose img f
            return -1
          | some fd => do
            if ip.device then setFile f fun x => { x with type := .device, major := ip.major }
            else setFile f fun x => { x with type := .inode, off := 0 }
            setFile f fun x => { x with readable := !wronly, writable := wronly || rdwr }
            return (fd : ℕ)

/-! ## Processes -/

/-- `allocpid`. -/
def allocpid : SysM ℕ := do
  let pid ← Seq.gets fun s => s.nextpid
  Seq.modify fun s => { s with nextpid := s.nextpid + 1 }
  return pid

/-- `freeproc`. -/
def freeproc (img : KernelImage) (p : ProcId) : SysM Unit := do
  let pr ← getProc p
  if pr.trapframe ≠ 0 then lift (kfree img pr.trapframe)
  setProc p fun pr => { pr with trapframe := 0 }
  if pr.pagetable ≠ 0 then lift (procFreepagetable img pr.pagetable pr.sz)
  setProc p fun pr =>
    { pr with
      pagetable := 0, sz := 0, pid := 0, parent := none, killed := false, xstate := 0,
      state := .unused }

/-- `allocproc`. -/
def allocproc (img : KernelImage) : SysM (Option ProcId) := do
  match ← Seq.gets fun s => (List.finRange nproc).find? fun p => (s.procs p).state = .unused with
  | none => return none
  | some p => do
    let pid ← allocpid
    setProc p fun pr => { pr with pid := pid, state := .used }
    let mem ← lift kalloc
    setProc p fun pr => { pr with trapframe := mem }
    if mem = 0 then do
      freeproc img p
      return none
    else do
      let pagetable ← lift (procPagetable img mem)
      setProc p fun pr => { pr with pagetable := pagetable }
      if pagetable = 0 then do
        freeproc img p
        return none
      else return some p

/-- `userinit`. Without a process the kernel traps. -/
def userinit (img : KernelImage) : SysM Unit := do
  match ← allocproc img with
  | none => Seq.panic "Kernel exception"
  | some p => do
    Seq.modify fun s => { s with initproc := some p }
    setProc p fun pr => { pr with state := .runnable }

/-- The loop of `kfork` over the open files. -/
def dupFiles (p np : ProcId) : List Fd → SysM Unit
  | [] => return ()
  | fd :: rest => do
    let pr ← getProc p
    match pr.ofile fd with
    | none => pure ()
    | some f => do
      filedup f
      setProc np fun pr => { pr with ofile := update pr.ofile fd (some f) }
    dupFiles p np rest

/-- The size of a `struct trapframe`. -/
def trapframeSize : ℕ := 288

/-- `kfork`. -/
def kfork (img : KernelImage) (p : ProcId) : SysM ℤ := do
  match ← allocproc img with
  | none => return -1
  | some np => do
    let pr ← getProc p
    let npr ← getProc np
    let r ← lift (uvmcopy img pr.pagetable npr.pagetable pr.sz)
    if r < 0 then do
      freeproc img np
      return -1
    else do
      setProc np fun npr => { npr with sz := pr.sz }
      lift (memmove npr.trapframe pr.trapframe trapframeSize)
      lift (store (npr.trapframe + 112) 0)
      dupFiles p np (List.finRange nofile)
      setProc np fun npr => { npr with parent := some p }
      setProc np fun npr => { npr with state := .runnable }
      return npr.pid

/-- The loop of `kexit` over the open files. -/
def closeFiles (img : KernelImage) (p : ProcId) : List Fd → SysM Unit
  | [] => return ()
  | fd :: rest => do
    let pr ← getProc p
    match pr.ofile fd with
    | none => pure ()
    | some f => do
      fileclose img f
      clearFd p fd
    closeFiles img p rest

/-- `reparent`. -/
def reparent (p : ProcId) : SysM Unit := Seq.modify fun s =>
  { s with
    procs := fun q =>
      if (s.procs q).parent = some p then { s.procs q with parent := s.initproc } else s.procs q }

/-- `kexit`. -/
def kexit (img : KernelImage) (p : ProcId) (status : ℤ) : SysM Unit := do
  let initproc ← Seq.gets fun s => s.initproc
  if initproc = some p then Seq.panic "init exiting"
  else do
    closeFiles img p (List.finRange nofile)
    reparent p
    setProc p fun pr => { pr with xstate := status, state := .zombie }

/-- The bytes of an `int`. -/
def intBytes (x : ℤ) : ℕ → UInt8 := Bytes.leByte (x % 2 ^ 32).toNat

/-- `kwait`. The result is `none` when the caller goes to sleep. -/
def kwait (img : KernelImage) (p : ProcId) (addr : ℕ) : SysM (Option ℤ) := do
  let zombie ← Seq.gets fun s => (List.finRange nproc).find? fun q =>
    (s.procs q).parent = some p ∧ (s.procs q).state = .zombie
  match zombie with
  | some q => do
    let pr ← getProc q
    let r ← if addr = 0 then pure 0 else copyoutTo img p addr (intBytes pr.xstate) 4
    if r < 0 then return some (-1)
    else do
      freeproc img q
      return some (pr.pid : ℤ)
  | none => do
    let havekids ← Seq.gets fun s => (List.finRange nproc).any fun q => (s.procs q).parent = some p
    let pr ← getProc p
    if !havekids || pr.killed then return some (-1) else return none

/-! ## Memory of a process -/

/-- A number taken as a `uint64`. -/
def u64 (x : ℤ) : ℕ := (x % 2 ^ 64).toNat

/-- `growproc`. -/
def growproc (img : KernelImage) (p : ProcId) (n : ℤ) : SysM ℤ := do
  let pr ← getProc p
  if n > 0 then
    if u64 (pr.sz + n) > trapframeVa then return -1
    else do
      let sz ← lift (uvmalloc img pr.pagetable pr.sz (u64 (pr.sz + n)) pteW)
      if sz = 0 then return -1
      else do
        setProc p fun pr => { pr with sz := sz }
        return 0
  else if n < 0 then do
    let sz ← lift (uvmdealloc img pr.pagetable pr.sz (u64 (pr.sz + n)))
    setProc p fun pr => { pr with sz := sz }
    return 0
  else return 0

/-- `SBRK_EAGER`. -/
def sbrkEager : ℤ := 1

/-- `sys_sbrk`. -/
def sysSbrk (img : KernelImage) (p : ProcId) (n t : ℤ) : SysM ℤ := do
  let pr ← getProc p
  let addr := pr.sz
  if t = sbrkEager ∨ n < 0 then do
    let r ← growproc img p n
    if r < 0 then return -1 else return addr
  else if u64 (addr + n) < addr then return -1
  else if u64 (addr + n) > trapframeVa then return -1
  else do
    setProc p fun pr => { pr with sz := u64 (pr.sz + n) }
    return addr

/-! ## Running a program -/

/-- What can be read of a file. -/
structure ExecFile where
  /-- The bytes that `readi` delivers at an offset. -/
  read : ℕ → ℕ → List UInt8
  /-- It delivers no more than it is asked for. -/
  length_le : ∀ off n, (read off n).length ≤ n

/-- `readi` into a buffer of the kernel; the offset is a `uint`. -/
def ExecFile.readi (file : ExecFile) (off n : ℕ) : List UInt8 := file.read (off % 2 ^ 32) n

/-- A field of a header. -/
def field (bytes : List UInt8) (off w : ℕ) : ℕ := Bytes.num (fun k => bytes.getD k 0) off w

/-- `flags2perm`. -/
def flags2perm (flags : ℕ) : ℕ :=
  (if hasFlag flags 1 then pteX else 0) ||| (if hasFlag flags 2 then pteW else 0)

/-- The loop of `loadseg`, with `n` pages to go. -/
def loadsegFrom (pagetable va : ℕ) (file : ExecFile) (offset sz : ℕ) : ℕ → ℕ → VmM ℤ
  | 0, _ => return 0
  | n + 1, i => do
    let pa ← walkaddr pagetable ((va + i) % 2 ^ 64)
    if pa = 0 then Seq.panic "loadseg: address should exist"
    else do
      let len := min (sz - i) pgsize
      let bytes := file.readi (offset + i) len
      memmoveFrom pa (fun k => bytes.getD k 0) bytes.length
      if bytes.length ≠ len then return -1
      else loadsegFrom pagetable va file offset sz n (i + pgsize)

/-- `loadseg`. -/
def loadseg (pagetable va : ℕ) (file : ExecFile) (offset sz : ℕ) : VmM ℤ :=
  loadsegFrom pagetable va file offset sz ((sz + pgsize - 1) / pgsize) 0

/-- The size of a `struct proghdr`. -/
def proghdrSize : ℕ := 56

/-- The loop of `kexec` over the program headers, with `n` headers to go. The result says
whether all went well, and what the size is now. -/
def loadProgram (img : KernelImage) (pagetable : ℕ) (file : ExecFile) :
    ℕ → ℕ → ℕ → VmM (Bool × ℕ)
  | 0, _, sz => return (true, sz)
  | n + 1, off, sz => do
    let ph := file.readi off proghdrSize
    let vaddr := field ph 16 8
    let filesz := field ph 32 8
    let memsz := field ph 40 8
    if ph.length ≠ proghdrSize then return (false, sz)
    else if field ph 0 4 ≠ 1 then loadProgram img pagetable file n (off + proghdrSize) sz
    else if memsz < filesz then return (false, sz)
    else if (vaddr + memsz) % 2 ^ 64 < vaddr then return (false, sz)
    else if vaddr % pgsize ≠ 0 then return (false, sz)
    else do
      let sz1 ← uvmalloc img pagetable sz ((vaddr + memsz) % 2 ^ 64) (flags2perm (field ph 4 4))
      if sz1 = 0 then return (false, sz)
      else do
        let r ← loadseg pagetable vaddr file (field ph 8 8 % 2 ^ 32) (filesz % 2 ^ 32)
        if r < 0 then return (false, sz1)
        else loadProgram img pagetable file n (off + proghdrSize) sz1

/-- Subtraction of `uint64`. -/
def sub64 (a b : ℕ) : ℕ := (a + 2 ^ 64 - b) % 2 ^ 64

/-- The loop of `kexec` that copies the arguments to the new stack. -/
def pushArgs (img : KernelImage) (p : UserSpace) (pagetable stackbase : ℕ) :
    List (List UInt8) → List ℕ → ℕ → VmM (Option (List ℕ × ℕ))
  | [], ustack, sp => return some (ustack, sp)
  | arg :: rest, ustack, sp =>
    if ustack.length ≥ maxarg then return none
    else do
      let sp := sub64 sp (arg.length + 1)
      let sp := sp - sp % 16
      if sp < stackbase then return none
      else do
        let r ← copyout img p pagetable sp (fun k => arg.getD k 0) (arg.length + 1)
        if r < 0 then return none
        else pushArgs img p pagetable stackbase rest (ustack ++ [sp]) sp

/-- The part of `kexec` that builds the new stack. The result is the stack pointer. -/
def buildStack (img : KernelImage) (p : UserSpace) (pagetable stackbase : ℕ)
    (argv : List (List UInt8)) (sp : ℕ) : VmM (Option ℕ) := do
  match ← pushArgs img p pagetable stackbase argv [] sp with
  | none => return none
  | some (ustack, sp) => do
    let words := ustack ++ [0]
    let sp := sub64 sp (words.length * 8)
    let sp := sp - sp % 16
    if sp < stackbase then return none
    else do
      let r ← copyout img p pagetable sp (fun k => Bytes.leByte (words.getD (k / 8) 0) (k % 8))
        (words.length * 8)
      if r < 0 then return none else return some sp

/-- The new image that `kexec` builds: its size and its stack pointer. When it fails, the size
tells how much of it has to be freed. -/
def buildImage (img : KernelImage) (p : UserSpace) (pagetable : ℕ) (file : ExecFile)
    (elf : List UInt8) (argv : List (List UInt8)) : VmM (ℕ × Option ℕ) := do
  let (ok, sz) ← loadProgram img pagetable file (field elf 56 2) (field elf 32 8) 0
  if ok = false then return (sz, none)
  else do
    let sz := pgroundup sz
    let sz1 ← uvmalloc img pagetable sz ((sz + (userstack + 1) * pgsize) % 2 ^ 64) pteW
    if sz1 = 0 then return (sz, none)
    else do
      uvmclear pagetable (sz1 - (userstack + 1) * pgsize)
      let sp ← buildStack img p pagetable (sz1 - userstack * pgsize) argv sz1
      return (sz1, sp)

/-- `ELF_MAGIC`. -/
def elfMagic : ℕ := 0x464C457F

/-- The size of a `struct elfhdr`. -/
def elfhdrSize : ℕ := 64

/-- `kexec`, with the file that `namei` finds. -/
def kexec (img : KernelImage) (p : ProcId) (file : Option ExecFile) (argv : List (List UInt8)) :
    SysM ℤ := do
  match file with
  | none => return -1
  | some file => do
    let elf := file.readi 0 elfhdrSize
    if elf.length ≠ elfhdrSize then return -1
    else if field elf 0 4 ≠ elfMagic then return -1
    else do
      let pr ← getProc p
      let pagetable ← lift (procPagetable img pr.trapframe)
      if pagetable = 0 then return -1
      else do
        let (sz, sp) ← lift (buildImage img pr.space pagetable file elf argv)
        match sp with
        | none => do
          lift (procFreepagetable img pagetable sz)
          return -1
        | some sp => do
          lift (store (pr.trapframe + 120) sp)
          setProc p fun pr => { pr with pagetable := pagetable, sz := sz }
          lift (store (pr.trapframe + 24) (field elf 24 8))
          lift (store (pr.trapframe + 48) sp)
          lift (procFreepagetable img pr.pagetable pr.sz)
          return argv.length

/-- `fetchaddr`. -/
def fetchaddr (img : KernelImage) (p : ProcId) (addr : ℕ) : SysM (Option ℕ) := do
  let pr ← getProc p
  if addr ≥ pr.sz ∨ (addr + 8) % 2 ^ 64 > pr.sz then return none
  else do
    let (r, bytes) ← copyinFor img p addr 8
    if r ≠ 0 then return none else return some (field bytes 0 8)

/-- The loop of `sys_exec` that fetches the arguments, with room for `n` more. The result is
the pages taken, and the strings if all went well. -/
def fetchArgs (img : KernelImage) (p : ProcId) :
    ℕ → ℕ → SysM (List ℕ × Option (List (List UInt8)))
  | 0, _ => return ([], none)
  | n + 1, uargv => do
    match ← fetchaddr img p uargv with
    | none => return ([], none)
    | some uarg => do
      if uarg = 0 then return ([], some [])
      else do
        let page ← lift kalloc
        if page = 0 then return ([], none)
        else do
          match ← copyinstrFor p uarg pgsize with
          | none => return ([page], none)
          | some arg => do
            lift (memmoveFrom page (fun k => arg.getD k 0) (arg.length + 1))
            let (pages, args) ← fetchArgs img p n ((uargv + 8) % 2 ^ 64)
            return (page :: pages, args.map (arg :: ·))

/-- The loops of `sys_exec` that free the arguments. -/
def freeArgs (img : KernelImage) : List ℕ → VmM Unit
  | [] => return ()
  | page :: rest => do
    kfree img page
    freeArgs img rest

/-- `sys_exec`. The file that `namei` finds for a path is `lookup path`. -/
def sysExec (img : KernelImage) (p : ProcId) (path uargv : ℕ)
    (lookup : List UInt8 → Option ExecFile) : SysM ℤ := do
  match ← copyinstrFor p path maxpath with
  | none => return -1
  | some path => do
    let (pages, args) ← fetchArgs img p maxarg uargv
    match args with
    | none => do
      lift (freeArgs img pages)
      return -1
    | some argv => do
      let ret ← kexec img p (lookup path) argv
      lift (freeArgs img pages)
      return ret

/-! ## Traps -/

/-- What `devintr` returns for a cause. -/
def devintr (scause : ℕ) : ℕ :=
  if scause = 0x8000000000000009 then 1 else if scause = 0x8000000000000005 then 2 else 0

/-- `usertrap`, for a trap whose cause is not 8, that of system calls. The result tells whether the
process returns to user code. -/
def usertrap (img : KernelImage) (p : ProcId) (scause sepc : ℕ) : SysM Bool := do
  let pr ← getProc p
  lift (store (pr.trapframe + 24) sepc)
  if devintr scause = 0 then setProc p fun pr => { pr with killed := true }
  let pr ← getProc p
  if pr.killed then do
    kexit img p (-1)
    return false
  else return true

end RiscvKernel.Sys
