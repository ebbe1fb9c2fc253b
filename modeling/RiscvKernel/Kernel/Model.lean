import RiscvKernel.Fs.Record

/-!
# Inodes, names and system calls

The functions of `fs.c` and `sysfile.c` that several processes run at the same
time. A process that holds the lock of an inode works on it in one section; the sections
in between are those of `itable.lock`.
-/

namespace RiscvKernel

open Threads

/-- `NFILE`, the open files of the system. -/
def nfile : ℕ := 100

/-- An index into `ftable.file`. -/
abbrev FileId := Fin nfile

instance : NeZero nfile := ⟨by decide⟩

/-- `NOFILE`, the open files of a process. -/
def nofile : ℕ := 16

/-- A file descriptor. -/
abbrev Fd := Fin nofile

/-- `NDEV`, the number of device drivers. -/
def ndev : ℕ := 10

/-- The state of the kernel as far as names are concerned. -/
structure Kernel (P : Type) where
  /-- The file system. -/
  fs : Fs
  /-- The holders of the inode locks. -/
  lock : InodeId → Option P
  /-- The current directories. -/
  cwd : P → Option InodeId
  /-- `log.outstanding`. -/
  outstanding : ℤ

/-- A program of the kernel. -/
abbrev KProg (P α : Type) := Prog P (Kernel P) Empty α

/-- Change an in-memory inode. -/
def Kernel.setInode {P : Type} (s : Kernel P) (e : InodeId) (ip : Inode) : Kernel P :=
  { s with fs := s.fs.setInode e ip }

/-- The name `.`. -/
def dot : Name := [46]

/-- The name `..`. -/
def dotdot : Name := [46, 46]

section Programs

variable {P : Type} [DecidableEq P] (sb : Superblock)

/-- Run a function on the file system as one section. -/
def fsCall {α : Type} (m : FsM α) : KProg P α :=
  Prog.step fun _ s =>
    match m s.fs with
    | .ok a fs => .done a { s with fs := fs } []
    | .panic msg _ => .panic msg
    | .stuck _ => .block

/-- `begin_op`. -/
def beginFs : KProg P Unit :=
  Prog.update fun _ s => ((), { s with outstanding := s.outstanding + 1 })

/-- `end_op`. -/
def endFs : KProg P Unit :=
  Prog.update fun _ s => ((), { s with outstanding := s.outstanding - 1 })

/-! ## The inode table -/

/-- The entry of the table that stands for inode `inum`. -/
def findInode (table : InodeId → Inode) (inum : ℕ) : Option InodeId :=
  (List.finRange ninode).find? fun e => 0 < (table e).ref ∧ (table e).inum = inum

/-- The first entry of the table that is not in use. -/
def findEmpty (table : InodeId → Inode) : Option InodeId :=
  (List.finRange ninode).find? fun e => (table e).ref = 0

/-- The section of `iget`. -/
def igetSection (inum : ℕ) (s : Kernel P) : Result (Kernel P) Empty Unit InodeId :=
  match findInode s.fs.itable inum with
  | some e => .done e (s.setInode e { s.fs.itable e with ref := (s.fs.itable e).ref + 1 }) []
  | none =>
    match findEmpty s.fs.itable with
    | none => .panic "iget: no inodes"
    | some e => .done e
        (s.setInode e { s.fs.itable e with inum := inum, ref := 1, valid := false }) []

/-- `iget`. -/
def iget (inum : ℕ) : KProg P InodeId := Prog.step fun _ => igetSection inum

/-- `idup(myproc()->cwd)`. -/
def idupCwd : KProg P InodeId := Prog.step fun p s =>
  match s.cwd p with
  | none => .block
  | some e => .done e (s.setInode e { s.fs.itable e with ref := (s.fs.itable e).ref + 1 }) []

/-- `ilock`; it returns the inode as it is then in memory. -/
def ilock (e : InodeId) : KProg P Dinode := Prog.step fun p s =>
  if (s.fs.itable e).ref < 1 then .panic "ilock"
  else
    match s.lock e with
    | some _ => .block
    | none =>
      match iload sb e s.fs with
      | .ok _ fs => .done (fs.itable e).d
          { s with fs := fs, lock := Function.update s.lock e (some p) } []
      | .panic msg _ => .panic msg
      | .stuck _ => .block

/-- `iunlock`. -/
def iunlock (e : InodeId) : KProg P Unit := Prog.step fun p s =>
  if s.lock e = some p ∧ ¬ (s.fs.itable e).ref < 1 then
    .done () { s with lock := Function.update s.lock e none } []
  else .panic "iunlock"

/-- The part of `iput` that frees an inode. -/
def ifree (e : InodeId) : FsM Unit := do
  itrunc sb e
  Seq.modify fun s => s.setD e { (s.itable e).d with type := 0 }
  iupdate sb e
  Seq.modify fun s => s.setInode e { s.itable e with valid := false }

/-- The first section of `iput`: free the inode if this is its last reference and it has no
links, or else drop the reference. `acquiresleep` cannot wait with `itable.lock` held. -/
def iputSection (e : InodeId) (s : Kernel P) : Result (Kernel P) Empty Unit Bool :=
  if (s.fs.itable e).ref = 1 ∧ (s.fs.itable e).valid = true ∧ (s.fs.itable e).d.nlink = 0 then
    match s.lock e with
    | some _ => .panic "sched locks"
    | none =>
      match ifree sb e s.fs with
      | .ok _ fs => .done true { s with fs := fs } []
      | .panic msg _ => .panic msg
      | .stuck _ => .block
  else .done false (s.setInode e { s.fs.itable e with ref := (s.fs.itable e).ref - 1 }) []

/-- The last section of `iput` after the inode has been freed. -/
def iputDrop (e : InodeId) : KProg P Unit := Prog.update fun _ s =>
  ((), s.setInode e { s.fs.itable e with ref := (s.fs.itable e).ref - 1 })

/-- `iput`. -/
def iput (e : InodeId) : KProg P Unit := do
  let freed ← Prog.step fun _ => iputSection sb e
  if freed then iputDrop e

/-- `iunlockput`. -/
def iunlockput (e : InodeId) : KProg P Unit := do
  iunlock e
  iput sb e

/-- `ip->inum`. -/
def inumOf (e : InodeId) : KProg P ℕ := Prog.read fun s => (s.fs.itable e).inum

/-- The loop of `ialloc`. -/
def iallocFrom (type : BitVec 16) : ℕ → ℕ → KProg P (Option InodeId)
  | 0, _ => return none
  | fuel + 1, inum => do
    let found ← fsCall (iallocAt sb type inum)
    if found then
      let e ← iget inum
      return some e
    else iallocFrom type fuel (inum + 1)

/-- `ialloc`. -/
def ialloc (type : BitVec 16) : KProg P (Option InodeId) := iallocFrom sb type (sb.ninodes - 1) 1

/-- `ip->nlink = f(ip->nlink); iupdate(ip)`. -/
def setNlink (e : InodeId) (f : BitVec 16 → BitVec 16) : FsM Unit := do
  Seq.modify fun s => s.setD e { (s.itable e).d with nlink := f (s.itable e).d.nlink }
  iupdate sb e

/-- The initialisation of a new inode in `create`. -/
def initInode (e : InodeId) (major minor : BitVec 16) : FsM Unit := do
  Seq.modify fun s => s.setD e { (s.itable e).d with major := major, minor := minor, nlink := 1 }
  iupdate sb e

/-! ## Directories and paths -/

/-- `dirlookup`: the inode of the entry and the offset of the entry. -/
def dirlookup (e : InodeId) (name : Name) : KProg P (Option (InodeId × ℕ)) := do
  match ← fsCall (dirlookupScan sb e name) with
  | none => return none
  | some (inum, off) =>
    let next ← iget inum
    return some (next, off)

/-- `dirlink`. -/
def dirlink (e : InodeId) (name : Name) (inum : ℕ) : KProg P ℤ := do
  match ← dirlookup sb e name with
  | some (next, _) =>
    iput sb next
    return -1
  | none =>
    let r ← fsCall (dirlinkStore sb e name inum)
    return if r.isSome then 0 else -1

/-- The byte `/`. -/
def slash : UInt8 := 47

/-- `skipelem`: the next element of the path and the rest after it. -/
def skipelem (path : List UInt8) : Option (Name × List UInt8) :=
  match path.dropWhile (· = slash) with
  | [] => none
  | c :: cs => some (((c :: cs).takeWhile (· ≠ slash)).take dirsiz,
      ((c :: cs).dropWhile (· ≠ slash)).dropWhile (· = slash))

/-- The loop of `namex`: the inode of the path, or of its parent with the last element. -/
def namexFrom (parent : Bool) : ℕ → InodeId → List UInt8 → KProg P (Option (InodeId × Name))
  | 0, _, _ => return none
  | fuel + 1, e, path =>
    match skipelem path with
    | none =>
      if parent then do
        iput sb e
        return none
      else return some (e, [])
    | some (name, rest) => do
      let d ← ilock sb e
      if d.type ≠ tDir then
        iunlockput sb e
        return none
      else if parent ∧ rest = [] then
        iunlock e
        return some (e, name)
      else
        match ← dirlookup sb e name with
        | none =>
          iunlockput sb e
          return none
        | some (next, _) =>
          iunlockput sb e
          namexFrom parent fuel next rest

/-- `namex`. -/
def namex (parent : Bool) (path : List UInt8) : KProg P (Option (InodeId × Name)) := do
  let e ← if path.head? = some slash then iget rootino else idupCwd
  namexFrom sb parent (path.length + 1) e path

/-- `namei`. -/
def namei (path : List UInt8) : KProg P (Option InodeId) := do
  return (← namex sb false path).map Prod.fst

/-- `nameiparent`. -/
def nameiparent (path : List UInt8) : KProg P (Option (InodeId × Name)) := namex sb true path

end Programs

end RiscvKernel
