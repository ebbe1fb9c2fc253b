import RiscvKernel.Lib.Refs
import RiscvKernel.Sys.Model
import RiscvKernel.Vm.Fork

/-!
# The invariant of the system

Every page that the kernel started with is free, or belongs to one process, to a pipe or to
the kernel. Every process has an address space of its own. Every open file is referred to as
often as its counter says, and the two flags of a pipe tell which of its ends are open. A step
in which one owner moves pages keeps the invariant of all the others.
-/

namespace RiscvKernel.Sys

open Threads Function

/-- Who may own pages. -/
inductive Owner
  | proc (p : ProcId)
  | pipes
  | kernel
  deriving DecidableEq

/-- The pages of a process: its trapframe and its address space. -/
def Proc.pages (mem : ℕ → UInt8) (pr : Proc) : Set ℕ :=
  if pr.state = .unused then ∅ else {pr.trapframe} ∪ footprint mem pr.pagetable

/-- The pages of the pipes that an open file refers to. -/
def livePipes (files : FileId → File) : Set ℕ :=
  {a | ∃ f, (files f).type = .pipe ∧ (files f).pipe = a}

/-- Which pages each owner owns; the kernel owns `T`. -/
def share (s : State) (T : Set ℕ) : Owner → Set ℕ
  | .proc p => (s.procs p).pages s.vm.mem
  | .pipes => livePipes s.files
  | .kernel => T

/-- The memory of a process. When all memory has been asked for eagerly, it has no holes. -/
structure Live (img : KernelImage) (eager : Prop) (vm : Vm) (pr : Proc) : Prop where
  /-- The trapframe is a page. -/
  trapframe : IsPage img pr.trapframe
  /-- The address space is well-formed. -/
  space : ProcSpace img vm pr.pagetable pr.trapframe pr.sz
  /-- The trapframe is not part of the user memory. -/
  apart : pr.trapframe ∉ footprint vm.mem pr.pagetable
  /-- There are no holes. -/
  dense : eager → ∀ va < pgroundup pr.sz, translate vm.mem pr.pagetable va ≠ none

/-- A slot of the process table is clean or holds a process. -/
def Slot (img : KernelImage) (eager : Prop) (vm : Vm) (pr : Proc) : Prop :=
  pr = Proc.fresh ∨ pr.state ≠ .unused ∧ Live img eager vm pr

/-- Where the flag of an end lies in a `struct pipe`. -/
def endOff (writable : Bool) : ℕ := if writable then writeopenOff else readopenOff

/-- An open file is an end of a pipe. -/
def IsEnd (files : FileId → File) (f : FileId) (a : ℕ) (writable : Bool) : Prop :=
  (files f).type = .pipe ∧ (files f).pipe = a ∧ (files f).writable = writable

/-- The open files, to which there are `cnt` references. -/
structure FileInv (files : FileId → File) (mem : ℕ → UInt8) (cnt : FileId → ℕ) : Prop where
  /-- The counters are exact. -/
  ref : ∀ f, (files f).ref = cnt f
  /-- An entry without references has no type. -/
  closed : ∀ f, (files f).ref = 0 → (files f).type = .none
  /-- An end of a pipe is for reading or for writing. -/
  side : ∀ f, (files f).type = .pipe → (files f).readable = !(files f).writable
  /-- Each end of a pipe is one file. -/
  ends : ∀ f f' a w, IsEnd files f a w → IsEnd files f' a w → f = f'
  /-- The flag of an end that is a file is set. -/
  opened : ∀ f a w, IsEnd files f a w → Bytes.num mem (a + endOff w) 4 = 1
  /-- The flag of the other end is clear if it is no file. -/
  shut : ∀ a ∈ livePipes files, ∀ w, (∀ f, ¬ IsEnd files f a w) → Bytes.num mem (a + endOff w) 4 = 0

/-- The invariant of the system. -/
structure Inv (img : KernelImage) (all : Set ℕ) (eager : Prop) (s : State) (T : Set ℕ)
    (cnt : FileId → ℕ) : Prop where
  /-- The slots of the process table. -/
  slot : ∀ p, Slot img eager s.vm (s.procs p)
  /-- The pages are shared out. -/
  shares : Shares img s.vm all (share s T)
  /-- The open files. -/
  files : FileInv s.files s.vm.mem cnt

variable {img : KernelImage} {all T T' : Set ℕ} {eager : Prop} {s s' s'' : State}
  {cnt cnt' : FileId → ℕ} {p q : ProcId} {E : String → Prop}

/-! ## Frames -/

/-- The pages of a process. -/
theorem Proc.pages_of_ne {mem : ℕ → UInt8} {pr : Proc} (h : pr.state ≠ .unused) :
    pr.pages mem = {pr.trapframe} ∪ footprint mem pr.pagetable := if_neg h

@[simp] theorem Proc.pages_fresh (mem : ℕ → UInt8) : Proc.fresh.pages mem = ∅ := if_pos rfl

/-- The address space of a process is as it was. -/
def SameSpace (s s' : State) (p : ProcId) : Prop :=
  (s'.procs p).pages s'.vm.mem = (s.procs p).pages s.vm.mem ∧
    ((s.procs p).state ≠ .unused → (s'.procs p).state ≠ .unused ∧
      ∀ va, translate s'.vm.mem (s'.procs p).pagetable va =
        translate s.vm.mem (s.procs p).pagetable va)

theorem SameSpace.refl (s : State) (p : ProcId) : SameSpace s s p :=
  ⟨rfl, fun h => ⟨h, fun _ => rfl⟩⟩

theorem SameSpace.trans (h : SameSpace s s' p) (h' : SameSpace s' s'' p) : SameSpace s s'' p := by
  refine ⟨h'.1.trans h.1, fun hne => ?_⟩
  obtain ⟨hne', htr⟩ := h.2 hne
  obtain ⟨hne'', htr'⟩ := h'.2 hne'
  exact ⟨hne'', fun va => (htr' va).trans (htr va)⟩

/-- Two slots agree about memory. -/
def Proc.SameMem (pr pr' : Proc) : Prop :=
  pr' = pr ∨ pr.state ≠ .unused ∧ pr'.state ≠ .unused ∧ pr'.sz = pr.sz ∧
    pr'.pagetable = pr.pagetable ∧ pr'.trapframe = pr.trapframe

/-- A process keeps its memory when another owner moves. -/
theorem Live.frame {vm vm' : Vm} {A B : Set ℕ} {pr : Proc} (h : Live img eager vm pr)
    (hm : Moves img vm vm' A B) (hdisj : ∀ a ∈ footprint vm.mem pr.pagetable, a ∉ A) :
    Live img eager vm' pr ∧ footprint vm'.mem pr.pagetable = footprint vm.mem pr.pagetable ∧
      ∀ va, translate vm'.mem pr.pagetable va = translate vm.mem pr.pagetable va := by
  obtain ⟨hspace, htr, hfoot⟩ := h.space.frame hm hdisj
  refine ⟨⟨h.trapframe, hspace, ?_, fun heager va hva => ?_⟩, hfoot, htr⟩
  · rw [hfoot]
    exact h.apart
  · rw [htr]
    exact h.dense heager va hva

/-- Only the memory of a process matters. -/
theorem Live.congr {vm : Vm} {pr pr' : Proc} (h : Live img eager vm pr) (hsz : pr'.sz = pr.sz)
    (hpt : pr'.pagetable = pr.pagetable) (htf : pr'.trapframe = pr.trapframe) :
    Live img eager vm pr' := by
  obtain ⟨h1, h2, h3, h4⟩ := h
  refine ⟨?_, ?_, ?_, ?_⟩
  · rwa [htf]
  · rwa [hpt, htf, hsz]
  · rwa [hpt, htf]
  · rwa [hpt, hsz]

theorem Proc.SameMem.refl (pr : Proc) : pr.SameMem pr := Or.inl rfl

/-- A slot stays what it is when another owner moves. -/
theorem Slot.frame {vm vm' : Vm} {A B : Set ℕ} {pr pr' : Proc} (h : Slot img eager vm pr)
    (hsame : pr.SameMem pr') (hm : Moves img vm vm' A B) (hdisj : ∀ a ∈ pr.pages vm.mem, a ∉ A) :
    Slot img eager vm' pr' ∧ pr'.pages vm'.mem = pr.pages vm.mem ∧
      (pr.state ≠ .unused → pr'.state ≠ .unused ∧
        ∀ va, translate vm'.mem pr'.pagetable va = translate vm.mem pr.pagetable va) := by
  obtain rfl | ⟨hne, hlive⟩ := h
  · obtain rfl | ⟨hne, -⟩ := hsame
    · exact ⟨.inl rfl, by rw [Proc.pages_fresh, Proc.pages_fresh], fun hne => absurd rfl hne⟩
    · exact absurd rfl hne
  · rw [Proc.pages_of_ne hne] at hdisj ⊢
    obtain ⟨hlive', hfoot, htr⟩ := hlive.frame hm fun a ha => hdisj a (.inr ha)
    obtain rfl | ⟨-, hne', hsz, hpt, htf⟩ := hsame
    · rw [Proc.pages_of_ne hne, hfoot]
      exact ⟨.inr ⟨hne, hlive'⟩, rfl, fun _ => ⟨hne, htr⟩⟩
    · rw [Proc.pages_of_ne hne', hpt, htf, hfoot]
      exact ⟨.inr ⟨hne', hlive'.congr hsz hpt htf⟩, rfl, fun _ => ⟨hne', htr⟩⟩

/-- Numbers in an unchanged page. -/
theorem num_congr_page {vm vm' : Vm} {a off n : ℕ} (h : SamePage vm vm' a)
    (hoff : off + n ≤ pgsize) : Bytes.num vm'.mem (a + off) n = Bytes.num vm.mem (a + off) n :=
  Bytes.num_congr fun k hk => h _ ⟨by omega, by omega⟩

/-- The pipes do not change while their pages do not. -/
theorem FileInv.frame {files : FileId → File} {vm vm' : Vm} (h : FileInv files vm.mem cnt)
    (hsame : ∀ a ∈ livePipes files, SamePage vm vm' a) : FileInv files vm'.mem cnt := by
  have hoff : ∀ w, endOff w + 4 ≤ pgsize := by decide
  refine ⟨h.ref, h.closed, h.side, h.ends, fun f a w hf => ?_, fun a ha w hw => ?_⟩
  · rw [num_congr_page (hsame a ⟨f, hf.1, hf.2.1⟩) (hoff w)]
    exact h.opened f a w hf
  · rw [num_congr_page (hsame a ha) (hoff w)]
    exact h.shut a ha w hw

section Step

variable (h : Inv img all eager s T cnt)

include h

/-- One owner moves pages, and the others are as they were. -/
theorem Inv.step (o : Owner)
    (hm : Moves img s.vm s'.vm (share s T o) (share s' T' o))
    (hprocs : ∀ q, Owner.proc q ≠ o → (s.procs q).SameMem (s'.procs q))
    (hslot : ∀ q, Owner.proc q = o → Slot img eager s'.vm (s'.procs q))
    (hpipes : Owner.pipes ≠ o → s'.files = s.files ∧ cnt' = cnt)
    (hfiles : Owner.pipes = o → FileInv s'.files s'.vm.mem cnt')
    (hkernel : Owner.kernel ≠ o → T' = T) :
    Inv img all eager s' T' cnt' ∧ ∀ q, Owner.proc q ≠ o → SameSpace s s' q := by
  have hother : ∀ q, Owner.proc q ≠ o → Slot img eager s'.vm (s'.procs q) ∧ SameSpace s s' q :=
    fun q hne => (h.slot q).frame (hprocs q hne) hm (h.shares.disjoint (.proc q) o hne)
  refine ⟨⟨fun q => ?_, h.shares.move hm fun o' hne => ?_, ?_⟩, fun q hne => (hother q hne).2⟩
  · by_cases heq : Owner.proc q = o
    · exact hslot q heq
    · exact (hother q heq).1
  · cases o' with
    | proc q => exact (hother q hne).2.1
    | pipes => exact congrArg livePipes (hpipes hne).1
    | kernel => exact hkernel hne
  · by_cases heq : Owner.pipes = o
    · exact hfiles heq
    · obtain ⟨hf, hc⟩ := hpipes heq
      rw [hf, hc]
      exact h.files.frame fun a ha => h.shares.same hm heq ha

/-- A process changes its own memory. -/
theorem Inv.step_proc {pr' : Proc}
    (hm : Moves img s.vm s'.vm ((s.procs p).pages s.vm.mem) (pr'.pages s'.vm.mem))
    (hslot : Slot img eager s'.vm pr') (hprocs : s'.procs = update s.procs p pr')
    (hfiles : s'.files = s.files) :
    Inv img all eager s' T cnt ∧ ∀ q ≠ p, SameSpace s s' q := by
  have hp : s'.procs p = pr' := by rw [hprocs, update_self]
  have hmove : Moves img s.vm s'.vm (share s T (.proc p)) (share s' T (.proc p)) := by
    rw [share, share, hp]
    exact hm
  have hstep : Inv img all eager s' T cnt ∧ ∀ q, Owner.proc q ≠ .proc p → SameSpace s s' q := by
    refine h.step (.proc p) hmove (fun q hne => ?_) (fun q heq => ?_) (fun _ => ⟨hfiles, rfl⟩)
      (fun heq => by cases heq) fun _ => rfl
    · rw [hprocs, update_of_ne fun heq => hne (congrArg Owner.proc heq)]
      exact Proc.SameMem.refl _
    · rw [Owner.proc.inj heq, hp]
      exact hslot
  exact ⟨hstep.1, fun q hne => hstep.2 q fun heq => hne (Owner.proc.inj heq)⟩

/-- A process in use has an address space. -/
theorem Inv.live (hp : (s.procs p).state ≠ .unused) :
    Live img eager s.vm (s.procs p) := by
  obtain hfresh | hlive := h.slot p
  · exact absurd (by rw [hfresh]; rfl) hp
  · exact hlive.2

/-- A process changes its address space, and perhaps its size. -/
theorem Inv.step_space {sz : ℕ} {pr : Proc}
    (hp : (s.procs p).state ≠ .unused)
    (hm : Moves img s.vm s'.vm (footprint s.vm.mem (s.procs p).pagetable)
      (footprint s'.vm.mem (s.procs p).pagetable))
    (hproc : ProcSpace img s'.vm (s.procs p).pagetable (s.procs p).trapframe sz)
    (hdense : eager → ∀ va < pgroundup sz, translate s'.vm.mem (s.procs p).pagetable va ≠ none)
    (hpr : pr = { s.procs p with sz := sz }) (hprocs : s'.procs = update s.procs p pr)
    (hfiles : s'.files = s.files) :
    Inv img all eager s' T cnt ∧ ∀ q ≠ p, SameSpace s s' q := by
  have hlive := h.live hp
  have hstate : pr.state ≠ .unused := by
    rw [hpr]
    exact hp
  have howns : Owns img s.vm ((s.procs p).pages s.vm.mem) := h.shares.owns (.proc p)
  rw [Proc.pages_of_ne hp] at howns
  have htf : Owns img s.vm {(s.procs p).trapframe} := howns.mono Set.subset_union_left
  have hdisj : ∀ a ∈ ({(s.procs p).trapframe} : Set ℕ),
      a ∉ footprint s.vm.mem (s.procs p).pagetable := by
    rintro a rfl
    exact hlive.apart
  refine h.step_proc ?_ (.inr ⟨hstate, ?_⟩) hprocs hfiles
  · rw [Proc.pages_of_ne hp, Proc.pages_of_ne hstate, hpr, Set.union_comm,
      Set.union_comm _ (footprint s'.vm.mem _)]
    exact hm.union htf hdisj
  · rw [hpr]
    exact ⟨hlive.trapframe, hproc, hm.apart htf hdisj _ rfl, hdense⟩

/-- The kernel takes or gives back pages of its own; the slots may change in what is not about
memory. -/
theorem Inv.step_kernel (hm : Moves img s.vm s'.vm T T')
    (hprocs : ∀ q, (s.procs q).SameMem (s'.procs q)) (hfiles : s'.files = s.files) :
    Inv img all eager s' T' cnt ∧ ∀ q, SameSpace s s' q := by
  have hstep : Inv img all eager s' T' cnt ∧ ∀ q, Owner.proc q ≠ .kernel → SameSpace s s' q :=
    h.step .kernel hm (fun q _ => hprocs q) (fun q heq => by cases heq) (fun _ => ⟨hfiles, rfl⟩)
      (fun heq => by cases heq) fun hne => absurd rfl hne
  exact ⟨hstep.1, fun q => hstep.2 q fun heq => by cases heq⟩

/-- Open files change, and pipes with them. -/
theorem Inv.step_files
    (hm : Moves img s.vm s'.vm (livePipes s.files) (livePipes s'.files))
    (hprocs : s'.procs = s.procs) (hfiles : FileInv s'.files s'.vm.mem cnt') :
    Inv img all eager s' T cnt' ∧ ∀ q, SameSpace s s' q := by
  have hstep : Inv img all eager s' T cnt' ∧ ∀ q, Owner.proc q ≠ .pipes → SameSpace s s' q := by
    refine h.step .pipes hm (fun q _ => ?_) (fun q heq => by cases heq) (fun hne => absurd rfl hne)
      (fun _ => hfiles) fun _ => rfl
    rw [hprocs]
    exact Proc.SameMem.refl _
  exact ⟨hstep.1, fun q => hstep.2 q fun heq => by cases heq⟩

/-- The slots change in what is not about memory. -/
theorem Inv.step_procs (hvm : s'.vm = s.vm)
    (hprocs : ∀ q, (s.procs q).SameMem (s'.procs q)) (hfiles : s'.files = s.files) :
    Inv img all eager s' T cnt ∧ ∀ q, SameSpace s s' q := by
  refine h.step_kernel ?_ hprocs hfiles
  rw [hvm]
  exact Moves.refl (h.shares.owns .kernel)

end Step

/-- Run a program over physical memory. -/
theorem lift_runs {α : Type} {m : VmM α} {Q : α → Vm → Prop} {R : α → State → Prop}
    (hm : Seq.Runs E m s.vm Q) (hR : ∀ a vm', Q a vm' → R a { s with vm := vm' }) :
    Seq.Runs E (lift m) s R := by
  unfold Seq.Runs at hm ⊢
  unfold lift
  cases hms : m s.vm with
  | ok a vm' =>
    rw [hms] at hm
    exact hR a vm' hm
  | panic msg vm' =>
    rw [hms] at hm
    exact hm
  | stuck vm' =>
    rw [hms] at hm
    exact hm

/-- Run a program over physical memory, and then go on. -/
theorem lift_bind {α β : Type} {m : VmM α} {g : α → SysM β} {Q : α → Vm → Prop}
    {R : β → State → Prop} (hm : Seq.Runs E m s.vm Q)
    (hg : ∀ a vm', Q a vm' → Seq.Runs E (g a) { s with vm := vm' } R) :
    Seq.Runs E (lift m >>= g) s R :=
  .bind (lift_runs hm (R := fun a s' => Seq.Runs E (g a) s' R) hg) fun _ _ h => h

end RiscvKernel.Sys
