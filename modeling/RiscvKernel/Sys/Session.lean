import RiscvKernel.Sys.Safety

/-!
# Exec and the file system

`kexec` once more, with what it does besides memory: the operation on the log, the inode of the
program, and the name of the process. The file system delivers the file; the model counts how
often `kexec` has begun and ended an operation, taken and released the inode, and locked and
unlocked it. Apart from that, `kexec` is the function of `RiscvKernel.Sys.Model`.
-/

namespace RiscvKernel.Sys

open Threads

/-- What a process has open in the file system. -/
structure FsUse where
  /-- Calls of `begin_op` without their `end_op`. -/
  ops : ℤ
  /-- References to inodes that have been taken and not released. -/
  refs : ℤ
  /-- Inodes that have been locked and not unlocked. -/
  locks : ℤ

/-- The state that `kexec` works on. -/
structure Session where
  /-- Memory, processes and open files. -/
  sys : State
  /-- `p->name`: sixteen bytes for each process. -/
  names : ProcId → List UInt8
  /-- What the calling process has open in the file system. -/
  fs : FsUse

/-- A program over sessions. -/
abbrev SessM := Seq Session

namespace Session

/-- Run a program on memory, processes and files. -/
def onSys {α : Type} (m : SysM α) : SessM α := fun s =>
  match m s.sys with
  | .ok a t => .ok a { s with sys := t }
  | .panic msg t => .panic msg { s with sys := t }
  | .stuck t => .stuck { s with sys := t }

/-- Change what is open in the file system. -/
def onFs (f : FsUse → FsUse) : SessM Unit := Seq.modify fun s => { s with fs := f s.fs }

/-- `begin_op`. -/
def beginOp : SessM Unit := onFs fun u => { u with ops := u.ops + 1 }

/-- `end_op`. -/
def endOp : SessM Unit := onFs fun u => { u with ops := u.ops - 1 }

/-- `namei`, which finds the given file: the inode has one more reference. -/
def namei (file : Option ExecFile) : SessM (Option ExecFile) := do
  if file.isSome then onFs fun u => { u with refs := u.refs + 1 }
  return file

/-- `ilock`. -/
def ilock : SessM Unit := onFs fun u => { u with locks := u.locks + 1 }

/-- `iunlockput`. -/
def iunlockput : SessM Unit := onFs fun u => { u with locks := u.locks - 1, refs := u.refs - 1 }

/-- The part of a path after its last slash. -/
def lastElem (path : List UInt8) : List UInt8 := (path.reverse.takeWhile (· ≠ 47)).reverse

/-- `safestrcpy(p->name, last, sizeof(p->name))`. -/
def setName (p : ProcId) (path : List UInt8) : SessM Unit := Seq.modify fun s =>
  let last := (lastElem path).take 15
  let name := last ++ [0] ++ (s.names p).drop (last.length + 1)
  { s with names := Function.update s.names p name }

/-- The label `bad` of `kexec`; `ip` tells whether the inode is still held. -/
def bad (img : KernelImage) (pagetable sz : ℕ) (ip : Bool) : SessM ℤ := do
  if pagetable ≠ 0 then onSys (lift (procFreepagetable img pagetable sz))
  if ip then
    iunlockput
    endOp
  return -1

/-- `kexec`. -/
def kexec (img : KernelImage) (p : ProcId) (path : List UInt8) (file : Option ExecFile)
    (argv : List (List UInt8)) : SessM ℤ := do
  beginOp
  match ← namei file with
  | none => do
    endOp
    return -1
  | some file => do
    ilock
    let elf := file.readi 0 elfhdrSize
    if elf.length ≠ elfhdrSize then bad img 0 0 true
    else if field elf 0 4 ≠ elfMagic then bad img 0 0 true
    else do
      let pr ← onSys (getProc p)
      let pagetable ← onSys (lift (procPagetable img pr.trapframe))
      if pagetable = 0 then bad img 0 0 true
      else do
        let (ok, sz) ← onSys (lift
          (loadProgram img pagetable file (field elf 56 2) (field elf 32 8) 0))
        if ok = false then bad img pagetable sz true
        else do
          iunlockput
          endOp
          let sz := pgroundup sz
          let sz1 ← onSys (lift
            (uvmalloc img pagetable sz ((sz + (userstack + 1) * pgsize) % 2 ^ 64) pteW))
          if sz1 = 0 then bad img pagetable sz false
          else do
            onSys (lift (uvmclear pagetable (sz1 - (userstack + 1) * pgsize)))
            match ← onSys (lift
              (buildStack img pr.space pagetable (sz1 - userstack * pgsize) argv sz1)) with
            | none => bad img pagetable sz1 false
            | some sp => do
              onSys (lift (store (pr.trapframe + 120) sp))
              setName p path
              onSys (setProc p fun pr => { pr with pagetable := pagetable, sz := sz1 })
              onSys (lift (store (pr.trapframe + 24) (field elf 24 8)))
              onSys (lift (store (pr.trapframe + 48) sp))
              onSys (lift (procFreepagetable img pr.pagetable pr.sz))
              return argv.length

/-! ## The same function on memory -/

section Refinement

variable {img : KernelImage} {p : ProcId} {names : ProcId → List UInt8} {fs0 fs : FsUse}
  {α : Type}

/-- From what is open as in `fs`, the program ends like `m`, with `fs0` open; if the result is
-1, the names are the ones given. -/
def Follows (names : ProcId → List UInt8) (fs0 fs : FsUse) (m' : SessM ℤ) (m : SysM ℤ) : Prop :=
  ∀ t, match m t with
    | .ok r t' => ∃ names', m' ⟨t, names, fs⟩ = .ok r ⟨t', names', fs0⟩ ∧
        (r = -1 → names' = names)
    | .panic msg _ => ∃ s', m' ⟨t, names, fs⟩ = .panic msg s'
    | .stuck _ => ∃ s', m' ⟨t, names, fs⟩ = .stuck s'

theorem Follows.pure (r : ℤ) : Follows names fs fs (pure r) (pure r) :=
  fun _ => ⟨names, rfl, fun _ => rfl⟩

/-- Both programs run the same program on memory, processes and files. -/
theorem Follows.bind {m : SysM α} {g' : α → SessM ℤ} {g : α → SysM ℤ}
    (hg : ∀ a, Follows names fs0 fs (g' a) (g a)) :
    Follows names fs0 fs (onSys m >>= g') (m >>= g) := by
  intro t
  rw [Seq.bind_apply, Seq.bind_apply]
  unfold onSys
  cases hm : m t with
  | ok a t' => exact hg a t'
  | panic msg t' => exact ⟨_, rfl⟩
  | stuck t' => exact ⟨_, rfl⟩

/-- A call of the file system. -/
theorem Follows.fs_bind {f : FsUse → FsUse} {k' : SessM ℤ} {m : SysM ℤ}
    (hk : Follows names fs0 (f fs) k' m) : Follows names fs0 fs (onFs f >>= fun _ => k') m :=
  hk

/-- `namei` has found the file. -/
theorem Follows.found_bind {file : ExecFile} {k' : Option ExecFile → SessM ℤ} {m : SysM ℤ}
    (hk : Follows names fs0 ⟨fs.ops, fs.refs + 1, fs.locks⟩ (k' (some file)) m) :
    Follows names fs0 fs (namei (some file) >>= k') m :=
  hk

theorem Follows.ite {c : Prop} [Decidable c] {m' n' : SessM ℤ} {m n : SysM ℤ}
    (hm : Follows names fs0 fs m' m) (hn : Follows names fs0 fs n' n) :
    Follows names fs0 fs (if c then m' else n') (if c then m else n) := by
  split
  · exact hm
  · exact hn

/-- The same without the condition on names. -/
def FollowsDone (fs : FsUse) (names : ProcId → List UInt8) (m' : SessM ℤ) (m : SysM ℤ) : Prop :=
  ∀ t, match m t with
    | .ok r t' => m' ⟨t, names, fs⟩ = .ok r ⟨t', names, fs⟩ ∧ r ≠ -1
    | .panic msg _ => ∃ s', m' ⟨t, names, fs⟩ = .panic msg s'
    | .stuck _ => ∃ s', m' ⟨t, names, fs⟩ = .stuck s'

theorem FollowsDone.pure {r : ℤ} (hr : r ≠ -1) : FollowsDone fs names (pure r) (pure r) :=
  fun _ => ⟨rfl, hr⟩

theorem FollowsDone.bind {m : SysM α} {g' : α → SessM ℤ} {g : α → SysM ℤ}
    (hg : ∀ a, FollowsDone fs names (g' a) (g a)) :
    FollowsDone fs names (onSys m >>= g') (m >>= g) := by
  intro t
  rw [Seq.bind_apply, Seq.bind_apply]
  unfold onSys
  cases hm : m t with
  | ok a t' => exact hg a t'
  | panic msg t' => exact ⟨_, rfl⟩
  | stuck t' => exact ⟨_, rfl⟩

/-- The name is set once nothing can fail any more. -/
theorem Follows.named {path : List UInt8} {k' : SessM ℤ} {m : SysM ℤ}
    (hk : ∀ names', FollowsDone fs names' k' m) :
    Follows names fs fs (setName p path >>= fun _ => k') m := by
  intro t
  have h := hk (Function.update names p ((lastElem path).take 15 ++ [0] ++
    (names p).drop (((lastElem path).take 15).length + 1))) t
  cases hm : m t with
  | ok r t' =>
    rw [hm] at h
    exact ⟨_, h.1, fun hr => absurd hr h.2⟩
  | panic msg t' => rw [hm] at h; exact h
  | stuck t' => rw [hm] at h; exact h

/-- The clean-up without a page table. -/
theorem bad_zero_follows
    (hfs : (⟨fs.ops - 1, fs.refs - 1, fs.locks - 1⟩ : FsUse) = fs0) :
    Follows names fs0 fs (bad img 0 0 true) (Pure.pure (-1)) := by
  subst hfs
  exact fun t => ⟨names, rfl, fun _ => rfl⟩

/-- The clean-up with a page table. -/
theorem bad_follows {pagetable sz : ℕ} {ip : Bool} (hroot : pagetable ≠ 0)
    (hfs : (if ip then (⟨fs.ops - 1, fs.refs - 1, fs.locks - 1⟩ : FsUse) else fs) = fs0) :
    Follows names fs0 fs (bad img pagetable sz ip)
      (do lift (procFreepagetable img pagetable sz); return -1) := by
  subst hfs
  unfold bad
  rw [if_pos hroot]
  refine Follows.bind fun _ => ?_
  cases ip with
  | true => exact fun t => ⟨names, rfl, fun _ => rfl⟩
  | false => exact Follows.pure (-1)

/-- A composition on memory, followed by the rest of a call. -/
theorem lift_bind_bind {α β γ : Type} (m : VmM α) (g : α → VmM β) (k : β → SysM γ) :
    (lift (m >>= g) >>= k) = (lift m >>= fun a => lift (g a) >>= k) := by
  funext s
  simp only [Seq.bind_apply, lift]
  cases m s.vm with
  | ok a vm => rfl
  | panic msg vm => rfl
  | stuck vm => rfl

/-- The steps of `buildImage`, one after the other. -/
theorem buildImage_bind {sp : UserSpace} {pagetable : ℕ} {file : ExecFile} {elf : List UInt8}
    {argv : List (List UInt8)} (k : ℕ × Option ℕ → SysM ℤ) :
    (lift (buildImage img sp pagetable file elf argv) >>= k) = (do
      let r ← lift (loadProgram img pagetable file (field elf 56 2) (field elf 32 8) 0)
      if r.1 = false then k (r.2, none)
      else do
        let sz1 ← lift (uvmalloc img pagetable (pgroundup r.2)
          ((pgroundup r.2 + (userstack + 1) * pgsize) % 2 ^ 64) pteW)
        if sz1 = 0 then k (pgroundup r.2, none)
        else do
          lift (uvmclear pagetable (sz1 - (userstack + 1) * pgsize))
          let stack ← lift (buildStack img sp pagetable (sz1 - userstack * pgsize) argv sz1)
          k (sz1, stack)) := by
  rw [buildImage, lift_bind_bind]
  congr 1
  funext r
  obtain ⟨ok, sz⟩ := r
  cases ok with
  | false => rfl
  | true =>
    simp only [Bool.true_eq_false, if_false]
    rw [lift_bind_bind]
    congr 1
    funext sz1
    split
    · rfl
    · rw [lift_bind_bind]
      congr 1
      funext _
      rw [lift_bind_bind]
      rfl

/-- `kexec` ends like the function without the file system. Everything it has opened there is
closed again, and the name changes only if it succeeds. -/
theorem kexec_follows (path : List UInt8) (file : Option ExecFile) (argv : List (List UInt8)) :
    Follows names fs fs (kexec img p path file argv) (Sys.kexec img p file argv) := by
  have hclosed : (⟨fs.ops + 1 - 1, fs.refs + 1 - 1, fs.locks + 1 - 1⟩ : FsUse) = fs := by
    simp
  cases file with
  | none =>
    have hnone : (⟨fs.ops + 1 - 1, fs.refs, fs.locks⟩ : FsUse) = fs := by simp
    intro t
    have hrun : kexec img p path none argv ⟨t, names, fs⟩ =
        .ok (-1) ⟨t, names, ⟨fs.ops + 1 - 1, fs.refs, fs.locks⟩⟩ := rfl
    rw [hnone] at hrun
    exact ⟨names, hrun, fun _ => rfl⟩
  | some file =>
    unfold Sys.kexec
    change Follows names fs fs (beginOp >>= fun _ => _) _
    refine Follows.fs_bind ?_
    refine Follows.found_bind ?_
    refine Follows.fs_bind ?_
    refine Follows.ite (bad_zero_follows hclosed) (Follows.ite (bad_zero_follows hclosed) ?_)
    refine Follows.bind fun pr => Follows.bind fun pagetable => ?_
    by_cases hroot : pagetable = 0
    · rw [if_pos hroot, if_pos hroot]
      exact bad_zero_follows hclosed
    rw [if_neg hroot, if_neg hroot, buildImage_bind]
    refine Follows.bind fun r => Follows.ite (bad_follows hroot hclosed) ?_
    refine Follows.fs_bind ?_
    refine Follows.fs_bind ?_
    rw [hclosed]
    refine Follows.bind fun sz1 => Follows.ite (bad_follows hroot rfl) ?_
    generalize sz1 - (userstack + 1) * pgsize = guard
    refine Follows.bind fun _ => ?_
    refine Follows.bind fun stack => ?_
    cases stack with
    | none => exact bad_follows hroot rfl
    | some sp =>
      refine Follows.bind fun _ => ?_
      refine Follows.named fun names' => ?_
      refine FollowsDone.bind fun _ => FollowsDone.bind fun _ => FollowsDone.bind fun _ =>
        FollowsDone.bind fun _ => FollowsDone.pure (by omega)

end Refinement

/-! ## All or nothing -/

variable {img : KernelImage} {all T : Set ℕ} {eager : Prop} {cnt : FileId → ℕ} {p : ProcId}
  {s : Session}

/-- **All or nothing.** In a state in which the pages are shared out among the processes, the
pipes and the kernel, its copies of the arguments included, `kexec` returns for every file,
every list of arguments that fit in a page, and every pattern of failures of `kalloc`: there is
no panic. What it opened in the file system is closed. If it returns -1, the process has its
page table, size, name, trapframe and memory as before, and the same pages are free. -/
theorem exec_all_or_nothing {argv : List (List UInt8)} (h : Inv img all eager s.sys T cnt)
    (hp : (s.sys.procs p).state ≠ .unused) (path : List UInt8) (file : Option ExecFile)
    (hargs : ∀ arg ∈ argv, arg.length < pgsize) :
    ∃ r s', kexec img p path file argv s = .ok r s' ∧ s'.fs = s.fs ∧
      (r = -1 → s'.sys.procs = s.sys.procs ∧ s'.names = s.names ∧
        SamePage s.sys.vm s'.sys.vm (s.sys.procs p).trapframe ∧
        (∀ va, userTranslate s'.sys p va = userTranslate s.sys p va) ∧
        (∀ va < trapframeVa, ∀ e, userTranslate s.sys p va = some e →
          SamePage s.sys.vm s'.sys.vm (pte2pa e)) ∧
        s'.sys.vm.freelist.Nodup ∧ ∀ a, a ∈ s'.sys.vm.freelist ↔ a ∈ s.sys.vm.freelist) := by
  obtain ⟨r, t, hrun, -, hexec⟩ :=
    (kexec_runs h hp file hargs).returns
  have hsim : Follows s.names s.fs s.fs (kexec img p path file argv) (Sys.kexec img p file argv) :=
    kexec_follows path file argv
  have hfollows := hsim s.sys
  rw [hrun] at hfollows
  obtain ⟨names', hsess, hnames⟩ := hfollows
  refine ⟨r, _, hsess, rfl, fun hr => ?_⟩
  rcases hexec with ⟨-, rfl, hm⟩ | ⟨hne, -⟩
  · have hown : Owns img s.sys.vm ((s.sys.procs p).pages s.sys.vm.mem) := h.shares.owns (.proc p)
    have hsame : ∀ a ∈ (s.sys.procs p).pages s.sys.vm.mem, SamePage s.sys.vm _ a :=
      fun a ha => hm.same hown (fun _ _ => id) ha
    refine ⟨rfl, hnames hr, hsame _ ?_, ?_, ?_, hm.owns.nodup, ?_⟩
    · rw [Proc.pages_of_ne hp]
      exact .inl rfl
    · exact ((h.live hp).frame hm fun _ _ => id).2.2
    · intro va hva e he
      exact hsame _ (userPage_mem (T := T) hp hva he)
    · intro a
      simpa using hm.total a
  · exact absurd hr hne

/-- A program that cannot be loaded is not run. -/
theorem kexec_unloadable {file : ExecFile} {path : List UInt8} {argv : List (List UInt8)}
    {pagetable sz : ℕ} {vm vm' : Vm} {r : ℤ} {s' : Session}
    (hlen : (file.readi 0 elfhdrSize).length = elfhdrSize)
    (hmagic : field (file.readi 0 elfhdrSize) 0 4 = elfMagic)
    (htable : procPagetable img (s.sys.procs p).trapframe s.sys.vm = .ok pagetable vm)
    (hne : pagetable ≠ 0)
    (hload : loadProgram img pagetable file (field (file.readi 0 elfhdrSize) 56 2)
      (field (file.readi 0 elfhdrSize) 32 8) 0 vm = .ok (false, sz) vm')
    (h : kexec img p path (some file) argv s = .ok r s') : r = -1 := by
  have hbad : ∃ t, bad img pagetable sz true t = .ok r s' := by
    simp only [kexec, beginOp, namei, ilock, onFs, onSys, lift, getProc, Seq.bind_apply,
      Seq.modify_apply, Seq.gets_apply, Seq.pure_apply, Seq.ok_bind, Option.isSome_some, if_true,
      hlen, hmagic, htable, hload, hne, ne_eq, not_true_eq_false, if_false] at h
    exact ⟨_, h⟩
  obtain ⟨t, h⟩ := hbad
  rw [bad, if_pos hne] at h
  obtain ⟨_, _, -, hret⟩ := Seq.bind_eq_ok h
  cases hret
  rfl

/-- A file that ends before its only segment, of 16 bytes at offset 120. -/
def truncatedElf : ExecFile where
  read off n := ((List.range 120).map fun k => if k < 4 then Bytes.leByte elfMagic k else
    ([(32, 64), (56, 1), (64, 1), (72, 120), (96, 16), (105, 16)].lookup k).getD 0).drop off
      |>.take n
  length_le _ _ := List.length_take_le _ _

/-- The first process, with nothing open in the file system. -/
def execSession : Session := ⟨initState, fun _ => List.replicate 16 0, ⟨0, 0, 0⟩⟩

/-- The first process runs a truncated program: the page of the segment has been mapped when the
read fails. It keeps its image. -/
theorem truncatedElf_leaves_image :
    ∃ s', kexec tinyImage initProc [47, 97] (some truncatedElf) [[97]] execSession = .ok (-1) s' ∧
      s'.fs = ⟨0, 0, 0⟩ ∧ s'.sys.procs = initState.procs ∧
      ∀ a, a ∈ s'.sys.vm.freelist ↔ a ∈ initState.vm.freelist := by
  let table := procPagetable tinyImage (initState.procs initProc).trapframe initState.vm
  have htable : table.value = some 2147508224 := by decide +kernel
  have hload : (loadProgram tinyImage 2147508224 truncatedElf 1 64 0 table.state).value =
      some (false, 4096) := by decide +kernel
  have hargs : ∀ arg ∈ [[(97 : UInt8)]], arg.length < pgsize := by decide
  have hsettled : Settled tinyImage (initialPages ∅ bootState) ∅ False initState :=
    (initState_reach Allowed).settled bootState_booted fun _ _ hc => ⟨hc, False.elim⟩
  obtain ⟨r, s', hrun, hfs, hundo⟩ := exec_all_or_nothing (s := execSession) (p := initProc)
    hsettled.inv initState_made.2.1 [47, 97] (some truncatedElf) hargs
  replace htable : table = .ok 2147508224 table.state := Outcome.eq_ok htable
  have hr := kexec_unloadable (s := execSession) (by decide) (by decide) htable (by decide)
    (Outcome.eq_ok hload) hrun
  subst hr
  obtain ⟨hprocs, -, -, -, -, -, hfree⟩ := hundo rfl
  exact ⟨s', hrun, hfs, hprocs, hfree⟩

end Session

end RiscvKernel.Sys
