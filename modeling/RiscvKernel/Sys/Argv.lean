import RiscvKernel.Sys.Sbrk
import RiscvKernel.Lib.Ranges

/-!
# The arguments of a program

A program that `kexec` starts finds its arguments on its stack: the register `a1` points to the
array of their addresses, and each address to a copy of the string. The arguments are the only
reason why a program that can be loaded is not started.
-/

namespace RiscvKernel.Sys

open Threads

variable {img : KernelImage} {all T : Set ℕ} {eager : Prop} {s s' : State}
  {cnt : FileId → ℕ} {p : ProcId} {sz sp : ℕ} {argv : List (List UInt8)}

/-- The register `a1` in the trapframe of a process. -/
def a1 (s : State) (p : ProcId) : ℕ := Bytes.num s.vm.mem ((s.procs p).trapframe + 120) 8

/-- The stack pointer in the trapframe of a process. -/
def stackPointer (s : State) (p : ProcId) : ℕ := Bytes.num s.vm.mem ((s.procs p).trapframe + 48) 8

/-- The ranges of the strings, each with its NUL. -/
def stringRanges (addrs : List ℕ) (argv : List (List UInt8)) : List (ℕ × ℕ) :=
  addrs.zip (argv.map fun arg => arg.length + 1)

/-- The ranges of the strings and of the array of their addresses. -/
def argRanges (sp : ℕ) (addrs : List ℕ) (argv : List (List UInt8)) : List (ℕ × ℕ) :=
  (sp, (argv.length + 1) * 8) :: stringRanges addrs argv

/-- What a new program finds on its stack when its arguments are at `addrs`. -/
structure ArgvOnStack (s : State) (p : ProcId) (argv : List (List UInt8)) (addrs : List ℕ) :
    Prop where
  /-- The second argument of `main` is the stack pointer. -/
  a1_eq : a1 s p = stackPointer s p
  /-- It is aligned. -/
  aligned : a1 s p % 16 = 0
  /-- It points to the addresses and a null pointer. -/
  words : WordsAt (userByte s p) (a1 s p) (addrs ++ [0])
  /-- At each address there is a copy of the argument. -/
  strings : List.Forall₂ (StringAt (userByte s p)) addrs argv
  /-- Nothing overlaps. -/
  apart : (argRanges (a1 s p) addrs argv).Pairwise Ranges.Apart
  /-- Everything lies in the last page. -/
  inside : ∀ r ∈ argRanges (a1 s p) addrs argv,
    (s.procs p).sz - pgsize ≤ r.1 ∧ r.1 + r.2 ≤ (s.procs p).sz
  /-- User code can read and write this page. -/
  stack : ∀ va, (s.procs p).sz - pgsize ≤ va → va < (s.procs p).sz →
    ∃ e, userTranslate s p va = some e ∧ hasFlag e pteU = true ∧ hasFlag e pteW = true
  /-- It cannot access the page below. -/
  guard : ∀ va, (s.procs p).sz - 2 * pgsize ≤ va → va < (s.procs p).sz - pgsize →
    ∃ e, userTranslate s p va = some e ∧ hasFlag e pteU = false

/-- No subtraction from the stack pointer wraps around: neither for a string that is reached
while there is stack left, nor for the array. -/
structure PushesExactly (sz : ℕ) (argv : List (List UInt8)) : Prop where
  /-- A string. -/
  string : ∀ before arg after, argv = before ++ arg :: after →
    argBytes before ≤ userstack * pgsize →
    sub64 (sz - argBytes before) (arg.length + 1) + (arg.length + 1) + argBytes before = sz
  /-- The array. -/
  array : argBytes argv ≤ userstack * pgsize →
    sub64 (sz - argBytes argv) ((argv.length + 1) * 8) + (argv.length + 1) * 8 + argBytes argv = sz

/-- The strings lie one below the other. -/
theorem stringRanges_apart (hfit : argBytes argv ≤ sp) :
    (stringRanges (argAddrs sp argv) argv).Pairwise Ranges.Apart ∧
      ∀ r ∈ stringRanges (argAddrs sp argv) argv, sp - argBytes argv ≤ r.1 ∧ r.1 + r.2 ≤ sp := by
  -- The induction is on the arguments; those to come lie below the stack pointer.
  induction argv generalizing sp with
  | nil =>
    constructor
    · exact List.Pairwise.nil
    · intro r hr
      cases hr
  | cons arg rest ih =>
    rw [argBytes_cons] at hfit ⊢
    have hge := le_round16 (arg.length + 1)
    obtain ⟨hpair, hin⟩ := @ih (sp - round16 (arg.length + 1)) (by omega)
    have hcons : stringRanges (argAddrs sp (arg :: rest)) (arg :: rest) =
        (sp - round16 (arg.length + 1), arg.length + 1) ::
          stringRanges (argAddrs (sp - round16 (arg.length + 1)) rest) rest := rfl
    rw [hcons]
    constructor
    · refine List.Pairwise.cons (fun r hr => ?_) hpair
      exact .inr (hin r hr).2
    · intro r hr
      rcases List.mem_cons.mp hr with rfl | hr
      · dsimp only
        omega
      · have := hin r hr
        omega

/-- What `kexec` has built is what the program finds. -/
theorem StackBuilt.argvOnStack (h : StackBuilt s.vm.mem (s.procs p).pagetable (s.procs p).sz
    (a1 s p) argv) (hsp : stackPointer s p = a1 s p) :
    ArgvOnStack s p argv (argAddrs (s.procs p).sz argv) := by
  have hfits : stackNeed argv ≤ userstack * pgsize := not_lt.mp fun hlt => h.fits (.inl hlt)
  have hneed : stackNeed argv = argBytes argv + round16 ((argv.length + 1) * 8) := rfl
  have hadd := h.sp_add
  have hroom := h.room
  have hmod : (s.procs p).sz % 4096 = 0 := h.mod
  have hpage : userstack * pgsize = pgsize := one_mul _
  have hge := le_round16 ((argv.length + 1) * 8)
  have hround := round16_mod ((argv.length + 1) * 8)
  have hargs := argBytes_mod argv
  obtain ⟨hpair, hin⟩ := @stringRanges_apart (s.procs p).sz argv (by omega)
  have hmap := h.map
  rw [hpage] at hmap hfits
  constructor
  · exact hsp.symm
  · omega
  · exact h.words
  · exact h.strings
  · refine List.Pairwise.cons (fun r hr => .inl ?_) hpair
    have := hin r hr
    omega
  · intro r hr
    rcases List.mem_cons.mp hr with rfl | hr
    · dsimp only
      omega
    · have := hin r hr
      omega
  · intro va h1 h2
    obtain ⟨e, ⟨-, he, hu⟩, hw⟩ := hmap.writable va h1 (by omega)
    exact ⟨e, he, hu, hw⟩
  · intro va h1 h2
    exact hmap.guard va (by omega) h2

/-- An image that can be loaded has room for a stack below its size. -/
theorem Loads.room {file : Option ExecFile} (h : Inv img all eager s T cnt)
    (hp : (s.procs p).state ≠ .unused) (hload : Loads img p file s sz) :
    2 * pgsize ≤ sz ∧ sz < 2 ^ 64 := by
  obtain ⟨f, root, vm, -, -, -, hrun, hne, vm', hload⟩ := hload
  have hroot := (procPagetable_runs (E := fun _ => False) h.ownsNone (h.live hp).trapframe).of_ok
    hrun
  rcases hroot with ⟨hroot, -⟩ | ⟨-, hproc, -⟩
  · exact absurd hroot hne
  · have hload := (loadImage_runs (E := fun _ => False) hproc).of_ok hload
    obtain ⟨hproc', -, hstack⟩ := hload
    obtain ⟨-, hstack⟩ := hstack rfl
    have hroom := hstack.room
    have hle := hproc'.sz_le
    have htop := trapframeVa_lt
    have hpage : userstack * pgsize = pgsize := one_mul _
    omega

/-- The stack pointer does not wrap around, since a string is shorter than a page. -/
theorem pushesExactly (hargs : ∀ arg ∈ argv, arg.length < pgsize) (hcount : argv.length < maxarg)
    (hroom : 2 * pgsize ≤ sz) (hlt : sz < 2 ^ 64) : PushesExactly sz argv := by
  have hpage : userstack * pgsize = 4096 := by decide
  have hpg : pgsize = 4096 := rfl
  constructor
  · intro before arg after heq hbefore
    have harg : arg.length < pgsize := by
      apply hargs arg
      rw [heq]
      exact List.mem_append_right _ (.head _)
    unfold sub64
    omega
  · intro hall
    have hmax : maxarg = 32 := rfl
    unfold sub64
    omega

/-- **The arguments arrive.** `kexec` returns for every file and every list of fewer than
`MAXARG` arguments that fit in a page. It fails exactly when the program cannot be loaded, which
does not depend on the arguments, or the rounded sizes of the strings and of the array add up to
more than the stack. Otherwise it returns the number of arguments, and they are on the stack. -/
theorem exec_delivers_argv (h : Inv img all eager s T cnt) (hp : (s.procs p).state ≠ .unused)
    (file : Option ExecFile) (hcount : argv.length < maxarg)
    (hargs : ∀ arg ∈ argv, arg.length < pgsize) :
    ∃ r s', kexec img p file argv s = .ok r s' ∧
      (r = -1 ↔ (∀ sz, ¬ Loads img p file s sz) ∨ userstack * pgsize < stackNeed argv) ∧
      (r ≠ -1 → r = argv.length ∧ ∃ addrs, ArgvOnStack s' p argv addrs) ∧
      ∀ sz, Loads img p file s sz → PushesExactly sz argv := by
  obtain ⟨r, s', hrun, -, -, hdeliver⟩ := (kexec_delivers h hp file hargs).returns
  refine ⟨r, s', hrun, ⟨fun hr => ?_, fun hor => ?_⟩, fun hr => ?_, fun sz hload => ?_⟩
  · by_cases hload : ∃ sz, Loads img p file s sz
    · obtain ⟨sz, hload⟩ := hload
      rcases hdeliver.failed hr sz hload with hneed | hmany
      · exact .inr hneed
      · omega
    · exact .inl (not_exists.mp hload)
  · by_contra hr
    obtain ⟨-, hload, -, hbuilt⟩ := hdeliver.done hr
    rcases hor with hno | hneed
    · exact hno _ hload
    · exact hbuilt.fits (.inl hneed)
  · obtain ⟨hargc, -, hsp, hbuilt⟩ := hdeliver.done hr
    exact ⟨hargc, _, hbuilt.argvOnStack hsp⟩
  · obtain ⟨hroom, hlt⟩ := hload.room h hp
    exact pushesExactly hargs hcount hroom hlt

/-- A program with an empty memory image. -/
def bareElf : ExecFile where
  read off n := ((List.range 64).map fun k => if k < 4 then Bytes.leByte elfMagic k else 0).drop off
    |>.take n
  length_le _ _ := List.length_take_le _ _

/-- A new page table, and the image in it. -/
def loadBare : VmM (ℕ × ℕ × Bool) := do
  let root ← procPagetable tinyImage (initState.procs initProc).trapframe
  let r ← loadImage tinyImage root bareElf (bareElf.readi 0 elfhdrSize)
  return (root, r)

theorem loadBare_value :
    ((loadBare initState.vm).value.any fun r => r.1 ≠ 0 && r.2 = (2 * pgsize, true)) = true := by
  decide +kernel

/-- The first process can load this program. -/
theorem bareElf_loads : Loads tinyImage initProc (some bareElf) initState (2 * pgsize) := by
  have hvalue := loadBare_value
  cases hrun : loadBare initState.vm with
  | panic msg vm =>
    rw [hrun] at hvalue
    cases hvalue
  | stuck vm =>
    rw [hrun] at hvalue
    cases hvalue
  | ok r vm =>
    rw [hrun] at hvalue
    obtain ⟨root, vm1, hroot, hrun⟩ := Seq.bind_eq_ok hrun
    obtain ⟨r', vm2, hload, hrun⟩ := Seq.bind_eq_ok hrun
    cases hrun
    have hvalue : root ≠ 0 ∧ r' = (2 * pgsize, true) := by simpa [Outcome.value] using hvalue
    obtain ⟨hne, rfl⟩ := hvalue
    exact ⟨bareElf, root, vm1, rfl, by decide, by decide, hroot, hne, vm, hload⟩

/-- The first process runs this program with one argument. -/
theorem bareElf_gets_argv :
    ∃ s', kexec tinyImage initProc (some bareElf) [[97]] initState = .ok 1 s' ∧
      ∃ addrs, ArgvOnStack s' initProc [[97]] addrs := by
  have hsettled : Settled tinyImage (initialPages ∅ bootState) ∅ False initState :=
    (initState_reach Allowed).settled bootState_booted fun _ _ hc => ⟨hc, False.elim⟩
  have hargs : ∀ arg ∈ [[(97 : UInt8)]], arg.length < pgsize := by decide
  obtain ⟨r, s', hrun, hfail, hdone, -⟩ := exec_delivers_argv hsettled.inv initState_made.2.1
    (some bareElf) (by decide) hargs
  have hne : r ≠ -1 := by
    intro hr
    rcases hfail.mp hr with hno | hneed
    · exact hno _ bareElf_loads
    · exact absurd hneed (by decide)
  obtain ⟨hargc, hstack⟩ := hdone hne
  subst hargc
  exact ⟨s', hrun, hstack⟩

end RiscvKernel.Sys
