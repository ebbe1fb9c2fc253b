import RiscvKernel.Sys.Exec

/-!
# Runs of the system

The calls that take and give back pages and references to open files, in any order and by any
number of processes, from the state in which the first process starts. Every state between two
calls is settled; a call that fails leaves nothing behind.
-/

namespace RiscvKernel.Sys

open Threads Function
open Threads.Seq (Runs)

variable {img : KernelImage} {all T : Set ℕ} {eager : Prop} {s0 s s' : State}
  {cnt : FileId → ℕ} {p q : ProcId} {E : String → Prop}

/-- A trap that is not a system call. An exception kills the process. -/
theorem usertrap_runs (h : Settled img all T eager s) (hp : Active s p) (scause sepc : ℕ)
    (hE : s.initproc = some p → E "init exiting") :
    Runs E (usertrap img p scause sepc) s fun _ s' => Post img all T eager p s 0 s' := by
  refine .gets_bind (writeFrame_bind 24 h.inv hp.1 rfl (by decide)
    fun s1 h1 hstep1 hfiles1 => ?_)
  have hp1 : (s1.procs p).state ≠ .unused := by
    rw [hstep1.procs]
    exact hp.1
  have hfreed : ∀ s2, s2.files = s1.files → ∀ s3, Post img all T eager p s2 0 s3 →
      Post img all T eager p s 0 s3 := by
    intro s2 hfiles2 s3 hpost
    refine ⟨hpost.settled, (fun hr => by cases hr), fun a ha hna => ?_⟩
    refine hpost.freed a ?_ hna
    rwa [hfiles2, hfiles1]
  -- The end of the trap, after the process may have been killed.
  have hend : ∀ s2, s2.files = s1.files → s2.initproc = s1.initproc →
      Settled img all T eager s2 → Active s2 p →
      Runs E (getProc p >>= fun pr => if pr.killed = true
        then kexit img p (-1) >>= fun _ => pure false else pure true) s2
        fun _ s' => Post img all T eager p s 0 s' := by
    intro s2 hfiles2 hinit2 h2 hp2
    refine .gets_bind ?_
    split
    · refine (kexit_runs h2 hp2 (-1) fun hi => hE ?_).bind fun _ s3 h3 => ?_
      · rwa [← hstep1.initproc, ← hinit2]
      · exact .pure (hfreed s2 hfiles2 s3 h3.1)
    · exact .pure (hfreed s2 hfiles2 s2 (Post.refl h2 0))
  have hsettled1 : Settled img all T eager s1 := by
    refine h.of_inv ?_ (fun q => by rw [hstep1.procs]) (fun q _ => by rw [hstep1.procs])
    rwa [refs_congr hstep1.procs]
  have hactive1 : Active s1 p := ⟨hp1, by rw [hstep1.procs]; exact hp.2⟩
  split
  · refine setProc_bind (AtSlot.refl s1 p) fun s2 hslot hvm => ?_
    have hsame : ∀ q, (s2.procs q).state = (s1.procs q).state ∧
        (s2.procs q).ofile = (s1.procs q).ofile := by
      intro q
      by_cases hq : q = p
      · subst hq
        rw [hslot.self]
        exact ⟨rfl, rfl⟩
      · rw [hslot.of_ne hq]
        exact ⟨rfl, rfl⟩
    obtain ⟨h2, -⟩ := hsettled1.inv.step_procs hvm (fun q => by
      by_cases hq : q = p
      · subst hq
        rw [hslot.self]
        exact .inr ⟨hp1, hp1, rfl, rfl, rfl⟩
      · rw [hslot.of_ne hq]
        exact Proc.SameMem.refl _) hslot.files
    refine hend s2 hslot.files hslot.initproc ?_ ?_
    · refine hsettled1.of_inv ?_ (fun q => (hsame q).1) (fun q _ => (hsame q).2)
      rwa [refs_eq fun q => (hsame q).2]
    · rw [Active, (hsame p).1]
      exact hactive1
  · exact hend s1 rfl rfl hsettled1 hactive1

/-! ## Calls -/

/-- A call, with the process that makes it. -/
inductive Call
  | kfork (p : ProcId)
  | kexit (p : ProcId) (status : ℤ)
  | kwait (p : ProcId) (addr : ℕ)
  | kexec (p : ProcId) (file : Option ExecFile) (argv : List (List UInt8))
  | sysExec (p : ProcId) (path uargv : ℕ) (lookup : List UInt8 → Option ExecFile)
  | sysSbrk (p : ProcId) (n t : ℤ)
  | vmfault (p : ProcId) (va : ℕ)
  | copyin (p : ProcId) (src len : ℕ)
  | copyout (p : ProcId) (dst : ℕ) (src : ℕ → UInt8) (len : ℕ)
  | sysPipe (p : ProcId) (fdarray : ℕ)
  | sysDup (p : ProcId) (fd : ℤ)
  | sysClose (p : ProcId) (fd : ℤ)
  | sysOpen (p : ProcId) (path : ℕ) (wronly rdwr : Bool) (lookup : List UInt8 → Option Opened)
  | usertrap (p : ProcId) (scause sepc : ℕ)

namespace Call

/-- The process that makes the call. -/
def proc : Call → ProcId
  | kfork p | kexit p _ | kwait p _ | kexec p _ _ | sysExec p _ _ _ | sysSbrk p _ _ | vmfault p _
  | copyin p _ _ | copyout p _ _ _ | sysPipe p _ | sysDup p _ | sysClose p _ | sysOpen p _ _ _ _
  | usertrap p _ _ => p

/-- The call. There is no result when it does not return to its caller. -/
def run (img : KernelImage) : Call → SysM (Option ℤ)
  | kfork p => some <$> Sys.kfork img p
  | kexit p status => (fun _ => none) <$> Sys.kexit img p status
  | kwait p addr => Sys.kwait img p addr
  | kexec p file argv => some <$> Sys.kexec img p file argv
  | sysExec p path uargv lookup => some <$> Sys.sysExec img p path uargv lookup
  | sysSbrk p n t => some <$> Sys.sysSbrk img p n t
  | vmfault p va => do
    let pr ← getProc p
    let pa ← lift (RiscvKernel.vmfault img pr.space pr.pagetable va)
    return some (pa : ℤ)
  | copyin p src len => (fun r => some r.1) <$> copyinFor img p src len
  | copyout p dst src len => some <$> copyoutTo img p dst src len
  | sysPipe p fdarray => some <$> Sys.sysPipe img p fdarray
  | sysDup p fd => some <$> Sys.sysDup p fd
  | sysClose p fd => some <$> Sys.sysClose img p fd
  | sysOpen p path wronly rdwr lookup => some <$> Sys.sysOpen img p path wronly rdwr lookup
  | usertrap p scause sepc => (fun _ => none) <$> Sys.usertrap img p scause sepc

/-- The arguments are in the range of their types; the kernel passes `kexec` short strings. A trap
of cause 8 is a system call, one of the others here. -/
def InRange : Call → Prop
  | kexec _ _ argv => ∀ arg ∈ argv, arg.length < pgsize
  | sysSbrk _ n _ => -2 ^ 31 ≤ n ∧ n < 2 ^ 31
  | usertrap _ scause _ => scause ≠ 8
  | _ => True

/-- The call does not grow memory lazily. -/
def Eager : Call → Prop
  | sysSbrk _ n t => t = sbrkEager ∨ n ≤ 0
  | _ => True

end Call

/-- A process that is alive makes a call. -/
def Allowed (s : State) (c : Call) : Prop := Active s c.proc ∧ c.InRange

/-- What a call leaves behind. -/
structure Called (img : KernelImage) (all T : Set ℕ) (eager : Prop) (c : Call) (s : State)
    (r : Option ℤ) (s' : State) : Prop where
  /-- The state is settled again. -/
  settled : Settled img all T eager s'
  /-- A failed call leaves nothing behind. -/
  undone : r = some (-1) → Undone c.proc s s'
  /-- A pipe without ends has no page. -/
  freed : ∀ a ∈ livePipes s.files, a ∉ livePipes s'.files → a ∈ s'.vm.freelist
  /-- `kwait` frees a child. -/
  reaped : ∀ p addr n, c = .kwait p addr → r = some n → n ≠ -1 → ∃ q, Reaped p q s n s'

/-- A call that returns a number. -/
theorem Called.of_post {c : Call} {n : ℤ} (h : Post img all T eager c.proc s n s')
    (hc : ∀ p addr, c ≠ .kwait p addr) : Called img all T eager c s (some n) s' :=
  ⟨h.settled, fun hn => h.undone (Option.some.inj hn), h.freed,
    fun p addr _ heq => absurd heq (hc p addr)⟩

/-- A call that does not return. -/
theorem Called.of_none {c : Call} {n : ℤ} (h : Post img all T eager c.proc s n s') :
    Called img all T eager c s none s' :=
  ⟨h.settled, nofun, h.freed, fun _ _ _ _ => nofun⟩

/-- The result of a call is wrapped. -/
theorem map_runs {α β : Type} {m : SysM α} {g : α → β} {Q : α → State → Prop}
    {R : β → State → Prop} (hm : Runs E m s Q) (hR : ∀ a s', Q a s' → R (g a) s') :
    Runs E (g <$> m) s R :=
  hm.bind fun a s' hQ => .pure (hR a s' hQ)

/-- Every call. The kernel panics only when the first process exits. -/
theorem call_runs {c : Call} (h : Settled img all T eager s) (hc : Allowed s c)
    (heager : eager → c.Eager) :
    Runs (· = "init exiting") (c.run img) s fun r s' => Called img all T eager c s r s' := by
  obtain ⟨hp, hrange⟩ := hc
  -- A call that returns a number.
  have hcall : ∀ {m : SysM ℤ}, (∀ p addr, c ≠ .kwait p addr) →
      Runs (· = "init exiting") m s (fun r s' => Post img all T eager c.proc s r s') →
      Runs (· = "init exiting") (some <$> m) s fun r s' => Called img all T eager c s r s' :=
    fun hne hm => map_runs hm fun r s' hpost => Called.of_post hpost hne
  cases c with
  | kfork p => exact hcall (fun _ _ => nofun) (kfork_runs h hp)
  | kexit p status =>
    exact map_runs (kexit_runs h hp status fun _ => rfl) fun _ s' hs' => Called.of_none hs'.1
  | kwait p addr =>
    refine (kwait_runs h hp addr).mono ?_
    rintro r s' (⟨rfl, hs'⟩ | ⟨n, rfl, hpost, hn⟩)
    · rw [hs']
      exact Called.of_none (Post.refl h 0)
    · refine ⟨hpost.settled, fun hr => hpost.undone (Option.some.inj hr), hpost.freed, ?_⟩
      rintro p' addr' n' heq hn' hne
      cases heq
      cases hn'
      exact hn.resolve_left hne
  | kexec p file argv => exact hcall (fun _ _ => nofun) (kexec_post h hp file hrange)
  | sysExec p path uargv lookup =>
    exact hcall (fun _ _ => nofun) (sysExec_runs h hp path uargv lookup)
  | sysSbrk p n t => exact hcall (fun _ _ => nofun) (sysSbrk_runs h hp hrange.2 heager)
  | vmfault p va =>
    refine .gets_bind ((vmfault_inv h.inv hp.1 va).bind fun pa s' hs' => ?_)
    exact .pure (Called.of_post (Post.of_own h hs'.1 hs'.2 _) fun _ _ => nofun)
  | copyin p src len =>
    refine map_runs (copyinFor_runs h.inv hp.1 src len) fun r s' hs' => ?_
    exact Called.of_post (Post.of_own h hs'.2.1 hs'.2.2 _) fun _ _ => nofun
  | copyout p dst src len =>
    refine hcall (fun _ _ => nofun) ((copyoutTo_runs h.inv hp.1 dst src len).mono
      fun r s' hs' => ?_)
    exact Post.of_own h hs'.2.1 hs'.2.2 r
  | sysPipe p fdarray => exact hcall (fun _ _ => nofun) (sysPipe_runs h hp fdarray)
  | sysDup p fd => exact hcall (fun _ _ => nofun) (sysDup_runs h hp fd)
  | sysClose p fd => exact hcall (fun _ _ => nofun) (sysClose_runs h hp fd)
  | sysOpen p path wronly rdwr lookup =>
    exact hcall (fun _ _ => nofun) (sysOpen_runs h hp path wronly rdwr lookup)
  | usertrap p scause sepc =>
    exact map_runs (usertrap_runs h hp scause sepc fun _ => rfl) fun _ s' hs' => Called.of_none hs'

/-! ## Runs -/

/-- The state that `main` leaves before it makes the first process: the tables are empty, and the
pages that the kernel has taken for itself are `T`. -/
structure Booted (img : KernelImage) (T : Set ℕ) (s : State) : Prop where
  /-- No slot of the process table is in use. -/
  procs : s.procs = fun _ => Proc.fresh
  /-- No file is open. -/
  files : s.files = fun _ => File.fresh
  /-- The pages on the free list are pages of the allocator, and the kernel's own are not among
  them. -/
  owns : Owns img s.vm T
  /-- The kernel's own pages came from the allocator. -/
  page : ∀ a ∈ T, IsPage img a

/-- The pages of the allocator. -/
def initialPages (T : Set ℕ) (s : State) : Set ℕ := {a | a ∈ s.vm.freelist} ∪ T

/-- The kernel has started. -/
theorem Booted.settled (h : Booted img T s) (eager : Prop) :
    Settled img (initialPages T s) T eager s := by
  have hlive : livePipes s.files = ∅ := by
    rw [h.files]
    ext a
    simp [livePipes, File.fresh]
  have hproc : ∀ p, (s.procs p).pages s.vm.mem = ∅ := by
    intro p
    rw [h.procs, Proc.pages_fresh]
  have hrefs : ∀ f, refs s f = 0 := by
    intro f
    refine Refs.count_eq_zero fun i => ?_
    rw [h.procs]
    exact nofun
  have hshare : ∀ o, o ≠ .kernel → share s T o = ∅ := by
    intro o ho
    cases o with
    | proc p => exact hproc p
    | pipes => exact hlive
    | kernel => exact absurd rfl ho
  have hend : ∀ f a w, ¬ IsEnd s.files f a w := by
    rintro f a w ⟨htype, -⟩
    rw [h.files] at htype
    cases htype
  refine ⟨⟨fun p => .inl (by rw [h.procs]), ⟨?_, ?_, ?_, ?_⟩, ⟨?_, ?_, ?_, ?_, ?_, ?_⟩⟩, ?_, ?_⟩
  · rintro a (ha | ha)
    · exact h.owns.page a ha
    · exact h.page a ha
  · intro o
    by_cases ho : o = .kernel
    · rw [ho]
      exact h.owns
    · rw [hshare o ho]
      exact h.owns.mono (Set.empty_subset T)
  · intro o o' hne a ha ha'
    by_cases ho : o = .kernel
    · rw [hshare o' fun ho' => hne (ho.trans ho'.symm)] at ha'
      exact ha'
    · rw [hshare o ho] at ha
      exact ha
  · intro a
    refine or_congr Iff.rfl ⟨fun ha => ⟨.kernel, ha⟩, ?_⟩
    rintro ⟨o, ha⟩
    by_cases ho : o = .kernel
    · rwa [ho] at ha
    · rw [hshare o ho] at ha
      exact ha.elim
  · intro f
    rw [hrefs, h.files]
    rfl
  · intro f _
    rw [h.files]
    rfl
  · intro f htype
    rw [h.files] at htype
    cases htype
  · exact fun f f' a w hf => absurd hf (hend f a w)
  · exact fun f a w hf => absurd hf (hend f a w)
  · intro a ha
    rw [hlive] at ha
    exact ha.elim
  · intro p hz
    rw [h.procs] at hz
    cases hz
  · intro p hused
    rw [h.procs] at hused
    cases hused

/-- A process that `allocproc` has set up becomes runnable. -/
theorem Settled.start {np : ProcId} {pr : Proc} {s1 s2 : State} (h : Settled img all T eager s)
    (hfresh : s.procs np = Proc.fresh) (hslot : AtSlot s s1 np pr) (hpr : Fresh pr)
    (h1 : Inv img all eager s1 T (refs s)) (hvm : s2.vm = s1.vm) (hfiles : s2.files = s1.files)
    (hprocs : s2.procs = update s1.procs np { s1.procs np with state := .runnable }) :
    Settled img all T eager s2 := by
  have hself : s2.procs np = { pr with state := .runnable } := by
    rw [hprocs, update_self, hslot.self]
  have hne : ∀ q ≠ np, s2.procs q = s.procs q := by
    intro q hq
    rw [hprocs, update_of_ne hq, hslot.of_ne hq]
  obtain ⟨h2, -⟩ := h1.step_procs hvm (fun q => by
    by_cases hq : q = np
    · rw [hq, hself, hslot.self]
      exact .inr ⟨by rw [hpr.state]; decide, nofun, rfl, rfl, rfl⟩
    · rw [hne q hq, hslot.of_ne hq]
      exact Proc.SameMem.refl _) hfiles
  have hofile : ∀ q, (s2.procs q).ofile = (s.procs q).ofile := by
    intro q
    by_cases hq : q = np
    · rw [hq, hself, hfresh]
      exact hpr.ofile
    · rw [hne q hq]
  refine ⟨?_, fun q hz => ?_, fun q hused => ?_⟩
  · rwa [refs_eq hofile]
  · by_cases hq : q = np
    · rw [hq, hself] at hz
      cases hz
    · rw [hne q hq] at hz ⊢
      exact h.zombie q hz
  · by_cases hq : q = np
    · rw [hq, hself] at hused
      cases hused
    · rw [hne q hq] at hused
      exact h.ready q hused

/-- The first process is made. -/
theorem userinit_runs (h : Settled img all T eager s) :
    Runs (fun _ => True) (userinit img) s fun _ s' => Settled img all T eager s' := by
  refine (allocproc_runs (p := ⟨0, by decide⟩) h.inv).bind ?_
  rintro r s1 (⟨rfl, -⟩ | ⟨np, pr, rfl, hfresh, hslot, hpr, h1, -⟩)
  · exact .panic trivial
  · exact .modify_bind (.modify (h.start hfresh hslot hpr h1 rfl rfl rfl))

/-- The states of the system between two calls, when all calls are as `ok` says. -/
def Reach (img : KernelImage) (ok : State → Call → Prop) (s0 s : State) : Prop :=
  ∃ s1, userinit img s0 = .ok () s1 ∧ Seq.Calls (Call.run img) ok s1 s

/-- Every state between two calls is settled. -/
theorem Reach.settled {ok : State → Call → Prop} (hr : Reach img ok s0 s) (hb : Booted img T s0)
    (hok : ∀ s c, ok s c → Allowed s c ∧ (eager → c.Eager)) :
    Settled img (initialPages T s0) T eager s := by
  obtain ⟨s1, hinit, hcalls⟩ := hr
  have hstep : ∀ s c, Settled img (initialPages T s0) T eager s → ok s c →
      Runs (· = "init exiting") (c.run img) s fun _ s' =>
        Settled img (initialPages T s0) T eager s' := fun s c hs hc =>
    (call_runs hs (hok s c hc).1 (hok s c hc).2).mono fun _ _ hs' => hs'.settled
  have h1 := (userinit_runs (hb.settled eager)).of_ok hinit
  exact hcalls.invariant h1 hstep

end RiscvKernel.Sys
