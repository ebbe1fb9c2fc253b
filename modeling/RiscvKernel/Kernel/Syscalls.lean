import RiscvKernel.Kernel.Model

/-!
# System calls that make and remove names

`create` and the system calls of `sysfile.c` on names. A path is what `argstr` has copied in; an
argument that could not be copied is `none`. The labels `fail` and `bad` of the source are
definitions of their own.
-/

namespace RiscvKernel

open Threads

/-- A path that `argstr` has copied in: a string without its terminating NUL. -/
def Path := { path : List UInt8 // 0 ∉ path }

/-- The most bytes that `filewrite` writes in one operation. -/
def maxWrite : ℕ := (maxopblocks - 1 - 1 - 2) / 2 * bsize

section Names

variable {P : Type} [DecidableEq P] (sb : Superblock)

/-! ## `create` -/

/-- `fail` in `create`. -/
def createFail (dp e : InodeId) : KProg P (Option InodeId) := do
  fsCall (setNlink sb e fun _ => 0)
  iunlockput sb e
  iunlockput sb dp
  return none

/-- `create` links the new inode. -/
def createLink (dp e : InodeId) (name : Name) (type : BitVec 16) (inum : ℕ) :
    KProg P (Option InodeId) := do
  let r ← dirlink sb dp name inum
  if r < 0 then createFail sb dp e
  else
    if type = tDir then
      fsCall (setNlink sb dp (· + 1))
    iunlockput sb dp
    return some e

/-- `create` writes the entries of a new directory. -/
def createEntries (dp e : InodeId) (name : Name) (type : BitVec 16) (inum dinum : ℕ) :
    KProg P (Option InodeId) :=
  if type = tDir then do
    let r ← dirlink sb e dot inum
    if r < 0 then createFail sb dp e
    else
      let r ← dirlink sb e dotdot dinum
      if r < 0 then createFail sb dp e else createLink sb dp e name type inum
  else createLink sb dp e name type inum

/-- The part of `create` that makes the new inode. -/
def createNew (dp : InodeId) (name : Name) (type major minor : BitVec 16) :
    KProg P (Option InodeId) := do
  match ← ialloc sb type with
  | none =>
    iunlockput sb dp
    return none
  | some e =>
    let _ ← ilock sb e
    fsCall (initInode sb e major minor)
    let inum ← inumOf e
    let dinum ← inumOf dp
    createEntries sb dp e name type inum dinum

/-- `create`: the new inode, or an existing file, locked. -/
def create (path : List UInt8) (type major minor : BitVec 16) : KProg P (Option InodeId) := do
  match ← nameiparent sb path with
  | none => return none
  | some (dp, name) =>
    let _ ← ilock sb dp
    match ← dirlookup sb dp name with
    | some (e, _) =>
      iunlockput sb dp
      let d ← ilock sb e
      if type = tFile ∧ (d.type = tFile ∨ d.type = tDevice) then return some e
      else
        iunlockput sb e
        return none
    | none => createNew sb dp name type major minor

/-- What `sys_mkdir` and `sys_mknod` have in common. -/
def makeNode (path : Option Path) (type major minor : BitVec 16) : KProg P ℤ := do
  beginFs
  match path with
  | none =>
    endFs
    return -1
  | some path =>
    match ← create sb path.1 type major minor with
    | none =>
      endFs
      return -1
    | some e =>
      iunlockput sb e
      endFs
      return 0

/-- `sys_mkdir`. -/
def sysMkdir (path : Option Path) : KProg P ℤ := makeNode sb path tDir 0 0

/-- `sys_mknod`. -/
def sysMknod (path : Option Path) (major minor : BitVec 16) : KProg P ℤ :=
  makeNode sb path tDevice major minor

/-! ## `sys_link` -/

/-- `bad` in `sys_link`. -/
def linkBad (e : InodeId) : KProg P ℤ := do
  let _ ← ilock sb e
  fsCall (setNlink sb e (· - 1))
  iunlockput sb e
  endFs
  return -1

/-- `sys_link` makes the new name. -/
def linkName (e : InodeId) (new : List UInt8) : KProg P ℤ := do
  match ← nameiparent sb new with
  | none => linkBad sb e
  | some (dp, name) =>
    let _ ← ilock sb dp
    let inum ← inumOf e
    let r ← dirlink sb dp name inum
    iunlockput sb dp
    if r < 0 then linkBad sb e
    else
      iput sb e
      endFs
      return 0

/-- `sys_link` after the arguments are copied in. -/
def linkPaths (old new : List UInt8) : KProg P ℤ := do
  beginFs
  match ← namei sb old with
  | none =>
    endFs
    return -1
  | some e =>
    let d ← ilock sb e
    if d.type = tDir then
      iunlockput sb e
      endFs
      return -1
    else
      fsCall (setNlink sb e (· + 1))
      iunlock e
      linkName sb e new

/-- `sys_link`. -/
def sysLink (old new : Option Path) : KProg P ℤ :=
  match old, new with
  | some old, some new => linkPaths sb old.1 new.1
  | _, _ => return -1

/-! ## `sys_unlink` -/

/-- `bad` in `sys_unlink`. -/
def unlinkBad (dp : InodeId) : KProg P ℤ := do
  iunlockput sb dp
  endFs
  return -1

/-- `sys_unlink` clears the entry at offset `off`. -/
def unlinkClear (dp e : InodeId) (type : BitVec 16) (off : ℕ) : KProg P ℤ := do
  fsCall (clearDirent sb dp off)
  if type = tDir then
    fsCall (setNlink sb dp (· - 1))
  iunlockput sb dp
  fsCall (setNlink sb e (· - 1))
  iunlockput sb e
  endFs
  return 0

/-- `sys_unlink` after the entry is found at offset `off`. -/
def unlinkFound (dp e : InodeId) (off : ℕ) : KProg P ℤ := do
  let d ← ilock sb e
  if d.nlink.toInt < 1 then Prog.step fun _ _ => .panic "unlink: nlink < 1"
  else if d.type = tDir then
    let empty ← fsCall (isdirempty sb e)
    if empty then unlinkClear sb dp e d.type off
    else
      iunlockput sb e
      unlinkBad sb dp
  else unlinkClear sb dp e d.type off

/-- `sys_unlink` after the argument is copied in. -/
def unlinkPath (path : List UInt8) : KProg P ℤ := do
  beginFs
  match ← nameiparent sb path with
  | none =>
    endFs
    return -1
  | some (dp, name) =>
    let _ ← ilock sb dp
    if name = dot ∨ name = dotdot then unlinkBad sb dp
    else
      match ← dirlookup sb dp name with
      | none => unlinkBad sb dp
      | some (e, off) => unlinkFound sb dp e off

/-- `sys_unlink`. -/
def sysUnlink : Option Path → KProg P ℤ
  | none => return -1
  | some path => unlinkPath sb path.1

end Names

end RiscvKernel
