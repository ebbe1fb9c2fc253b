import RiscvKernel.Sys.Fds

/-!
# Making and ending processes

`allocproc` builds a process in a clean slot, or leaves the slot clean; `freeproc` gives back
all that a process owns. `kfork`, `kexit` and `kwait` keep the invariant of the system.
-/

namespace RiscvKernel.Sys

open Threads Function
open Threads.Seq (Runs)

variable {img : KernelImage} {all T : Set ℕ} {eager : Prop} {s s' s'' : State}
  {cnt : FileId → ℕ} {f : FileId} {a : ℕ} {p q np : ProcId} {fd : Fd} {E : String → Prop}

/-- A state that differs from `s` in memory and in one slot. -/
structure AtSlot (s s' : State) (p : ProcId) (pr : Proc) : Prop where
  /-- The slot is replaced. -/
  procs : s'.procs = update s.procs p pr
  /-- The open files are the same. -/
  files : s'.files = s.files
  /-- So is `initproc`. -/
  initproc : s'.initproc = s.initproc

section AtSlot

variable {pr : Proc} {g : Proc → Proc} {R : Unit → State → Prop}

theorem AtSlot.self (h : AtSlot s s' p pr) : s'.procs p = pr := by
  rw [h.procs, update_self]

theorem AtSlot.of_ne (h : AtSlot s s' p pr) (hq : q ≠ p) : s'.procs q = s.procs q := by
  rw [h.procs, update_of_ne hq]

theorem AtSlot.refl (s : State) (p : ProcId) : AtSlot s s p (s.procs p) :=
  ⟨(update_eq_self p s.procs).symm, rfl, rfl⟩

theorem AtSlot.vm {vm' : Vm} (h : AtSlot s s' p pr) : AtSlot s { s' with vm := vm' } p pr :=
    ⟨h.1, h.2, h.3⟩

theorem AtSlot.set {pr' : Proc} (h : AtSlot s s' p pr) (h' : AtSlot s' s'' p pr') :
    AtSlot s s'' p pr' :=
  ⟨by rw [h'.procs, h.procs, update_idem], h'.files.trans h.files,
    h'.initproc.trans h.initproc⟩

/-- A slot changes. -/
theorem setProc_runs (h : AtSlot s s' p pr)
    (hR : ∀ s'', AtSlot s s'' p (g pr) → s''.vm = s'.vm → R () s'') :
    Runs E (setProc p g) s' R := by
  refine .modify (hR _ (h.set ⟨?_, rfl, rfl⟩) rfl)
  rw [← h.self]

/-- A slot changes, and the program goes on. -/
theorem setProc_bind {β : Type} {k : Unit → SysM β} {R : β → State → Prop} (h : AtSlot s s' p pr)
    (hk : ∀ s'', AtSlot s s'' p (g pr) → s''.vm = s'.vm → Runs E (k ()) s'' R) :
    Runs E (setProc p g >>= k) s' R :=
  .bind (setProc_runs h hk) fun _ _ hrun => hrun

end AtSlot

/-- What `freeproc` finds in a slot: nothing, a trapframe only, or a process. -/
inductive Built (img : KernelImage) (vm : Vm) (pr : Proc) : Set ℕ → Prop
  | nothing : pr.trapframe = 0 → pr.pagetable = 0 → Built img vm pr ∅
  | frame : IsPage img pr.trapframe → pr.pagetable = 0 → Built img vm pr {pr.trapframe}
  | full : IsPage img pr.trapframe → ProcSpace img vm pr.pagetable pr.trapframe pr.sz →
      pr.trapframe ∉ footprint vm.mem pr.pagetable →
      Built img vm pr ({pr.trapframe} ∪ footprint vm.mem pr.pagetable)

/-- A slot after `freeproc`. -/
def Proc.freed (pr : Proc) : Proc := { Proc.fresh with ofile := pr.ofile }

/-- `freeproc` gives back what the slot holds. -/
theorem freeproc_runs {A : Set ℕ} (hb : Built img s.vm (s.procs p) A) (ho : Owns img s.vm A) :
    Runs E (freeproc img p) s fun _ s' =>
      Moves img s.vm s'.vm A ∅ ∧ AtSlot s s' p (s.procs p).freed := by
  unfold freeproc
  refine .gets_bind ?_
  cases hb with
  | nothing htf hpt =>
    rw [if_neg (not_not.mpr htf)]
    refine setProc_bind (AtSlot.refl s p) fun s1 h1 hvm1 => ?_
    rw [if_neg (not_not.mpr hpt)]
    refine setProc_runs h1 fun s2 h2 hvm2 => ⟨?_, h2⟩
    rw [hvm2, hvm1]
    exact Moves.refl ho
  | frame htf hpt =>
    rw [if_pos htf.pos]
    refine lift_bind (kfree_runs ho htf) fun _ vm1 hm => ?_
    refine setProc_bind (AtSlot.refl s p).vm fun s1 h1 hvm1 => ?_
    rw [if_neg (not_not.mpr hpt)]
    refine setProc_runs h1 fun s2 h2 hvm2 => ⟨?_, h2⟩
    rw [hvm2, hvm1]
    exact hm
  | full htf hproc hapart =>
    rw [if_pos htf.pos]
    have hfoot : Owns img s.vm (footprint s.vm.mem (s.procs p).pagetable) :=
      ho.mono Set.subset_union_right
    have hdisj : ∀ b ∈ footprint s.vm.mem (s.procs p).pagetable,
        b ∉ ({(s.procs p).trapframe} : Set ℕ) := by
      rintro b hb rfl
      exact hapart hb
    refine lift_bind (kfree_runs (ho.mono Set.subset_union_left) htf) fun _ vm1 hm1 => ?_
    refine setProc_bind (AtSlot.refl s p).vm fun s1 h1 hvm1 => ?_
    rw [if_pos hproc.space.root_ne]
    -- The trapframe is not part of the address space, which is therefore still intact.
    obtain ⟨hproc', -, hfoot'⟩ := hproc.frame hm1 hdisj
    rw [← show s1.vm = vm1 from hvm1] at hproc'
    refine lift_bind (procFreepagetable_runs hproc') fun _ vm2 hm2 => ?_
    refine setProc_runs h1.vm fun s2 h2 hvm2 => ⟨?_, h2⟩
    rw [show s1.vm = vm1 from hvm1] at hm2
    rw [hvm2]
    refine ((hm1.union hfoot hdisj).of_eq rfl ?_).trans hm2
    rw [hfoot', Set.empty_union]

/-- A free slot is empty. -/
theorem Inv.fresh (h : Inv img all eager s T cnt) (hp : (s.procs p).state = .unused) :
    s.procs p = Proc.fresh :=
  (h.slot p).elim id fun hlive => absurd hp hlive.1

/-- A new process. -/
structure Fresh (pr : Proc) : Prop where
  /-- It is being set up. -/
  state : pr.state = .used
  /-- It has no memory yet. -/
  sz : pr.sz = 0
  /-- It has no open files. -/
  ofile : pr.ofile = fun _ => none

/-- `allocproc` builds a process in a clean slot, or leaves everything as it was. -/
theorem allocproc_runs (h : Inv img all eager s T cnt) :
    Runs E (allocproc img) s fun r s' =>
      (r = none ∧ Inv img all eager s' T cnt ∧ OwnStep p s s' ∧ ∀ q, SameSpace s s' q) ∨
      ∃ np pr, r = some np ∧ s.procs np = Proc.fresh ∧ AtSlot s s' np pr ∧ Fresh pr ∧
        Inv img all eager s' T cnt ∧ ∀ q ≠ np, SameSpace s s' q := by
  unfold allocproc
  refine .gets_bind ?_
  cases hfind : (List.finRange nproc).find? fun p => (s.procs p).state = .unused with
  | none => exact .pure (.inl ⟨rfl, h, OwnStep.refl p s, SameSpace.refl s⟩)
  | some np =>
  have hfresh : s.procs np = Proc.fresh := h.fresh (by simpa using List.find?_some hfind)
  have hslot : AtSlot s { s with nextpid := s.nextpid + 1 } np Proc.fresh := by
    have := AtSlot.refl s np
    rw [hfresh] at this
    exact ⟨this.1, this.2, this.3⟩
  -- A slot that was cleaned up is as it was.
  have hclean : ∀ s1, AtSlot s s1 np Proc.fresh → Moves img s.vm s1.vm ∅ ∅ →
      Inv img all eager s1 T cnt ∧ OwnStep p s s1 ∧ ∀ q, SameSpace s s1 q := by
    intro s1 h1 hm1
    have hprocs : s1.procs = s.procs := by
      rw [h1.procs, ← hfresh, update_eq_self]
    obtain ⟨hinv, hstep⟩ := h.step_idle hm1 hprocs h1.files h1.initproc
    exact ⟨hinv, ⟨hprocs, h1.initproc, h1.files, hstep.within⟩, hstep.space⟩
  refine .of_eq_bind (a := s.nextpid) (t := { s with nextpid := s.nextpid + 1 }) rfl ?_
  refine setProc_bind hslot fun s1 h1 hvm1 => ?_
  have hvm1 : s1.vm = s.vm := hvm1
  refine lift_bind (kalloc_runs (by rw [hvm1]; exact h.ownsNone)) fun mem vm2 hmem => ?_
  rw [hvm1] at hmem
  refine setProc_bind h1.vm fun s3 h3 hvm3 => ?_
  have hvm3 : s3.vm = vm2 := hvm3
  rw [← hvm3] at hmem
  obtain ⟨rfl, hm, -⟩ | ⟨hpage, -, hm⟩ := hmem
  · rw [if_pos rfl]
    have hbuilt : Built img s3.vm (s3.procs np) ∅ := by
      rw [h3.self]
      exact Built.nothing rfl rfl
    refine (freeproc_runs hbuilt hm.owns).bind fun _ s4 ⟨hm4, h4⟩ => ?_
    have h4 := h3.set h4
    rw [h3.self] at h4
    exact .pure (.inl ⟨rfl, hclean s4 h4 (hm.trans hm4)⟩)
  rw [if_neg hpage.pos]
  refine lift_bind (procPagetable_runs (hm.owns.mono (Set.empty_subset _)) hpage)
    fun pagetable vm4 hpt => ?_
  refine setProc_bind h3.vm fun s5 h5 hvm5 => ?_
  have h5 : AtSlot s s5 np { Proc.fresh with
      pid := s.nextpid, state := .used, trapframe := mem, pagetable := pagetable } := h5
  have hvm5 : s5.vm = vm4 := hvm5
  rw [← hvm5] at hpt
  have hnot : ∀ b ∈ ({mem} : Set ℕ), b ∉ (∅ : Set ℕ) := fun _ _ => Set.notMem_empty _
  obtain ⟨rfl, hm5⟩ | ⟨hne, hproc, hm5⟩ := hpt
  · rw [if_pos rfl]
    have hm5 := hm.trans ((hm5.union hm.owns hnot).of_eq (Set.empty_union _) (Set.empty_union _))
    have hbuilt : Built img s5.vm (s5.procs np) {mem} := by
      rw [h5.self]
      exact Built.frame hpage rfl
    refine (freeproc_runs hbuilt hm5.owns).bind fun _ s6 ⟨hm6, h6⟩ => ?_
    have h6 := h5.set h6
    rw [h5.self] at h6
    exact .pure (.inl ⟨rfl, hclean s6 h6 (hm5.trans hm6)⟩)
  · rw [if_neg hne]
    have hapart := hm5.apart hm.owns hnot mem rfl
    have hm5 := hm.trans ((hm5.union hm.owns hnot).of_eq (Set.empty_union _) (Set.union_comm _ _))
    refine .pure (.inr ⟨np, _, rfl, hfresh, h5, ⟨rfl, rfl, rfl⟩, ?_⟩)
    have hused : ProcState.used ≠ .unused := by decide
    have hzero : pgroundup 0 = 0 := by decide
    refine h.step_proc ?_ (.inr ⟨hused, hpage, hproc, hapart, fun _ va hva => ?_⟩) h5.procs
      h5.files
    · rw [hfresh, Proc.pages_fresh, Proc.pages_of_ne hused]
      exact hm5
    · rw [show Proc.fresh.sz = 0 from rfl, hzero] at hva
      exact absurd hva (Nat.not_lt_zero va)

/-! ## Fork -/

/-- The kernel writes into the trapframe of a process. -/
theorem Inv.step_trapframe (h : Inv img all eager s T cnt) (hp : (s.procs p).state ≠ .unused)
    (hfree : s'.vm.freelist = s.vm.freelist)
    (hmem : ∀ x, ¬ InPage (s.procs p).trapframe x → s'.vm.mem x = s.vm.mem x)
    (hprocs : s'.procs = s.procs) (hfiles : s'.files = s.files) :
    Inv img all eager s' T cnt ∧ ∀ q, SameSpace s s' q := by
  have hlive := h.live hp
  have howns : Owns img s.vm ((s.procs p).pages s.vm.mem) := h.shares.owns (.proc p)
  have htf : (s.procs p).trapframe ∈ (s.procs p).pages s.vm.mem := by
    rw [Proc.pages_of_ne hp]
    exact .inl rfl
  have hone : Moves img s.vm s'.vm {(s.procs p).trapframe} {(s.procs p).trapframe} :=
    Moves.change (howns.mono (Set.singleton_subset_iff.mpr htf)) rfl hfree hmem
  obtain ⟨hlive', hfoot, htr⟩ := hlive.frame hone (by
    rintro a ha rfl
    exact hlive.apart ha)
  have hpages : (s.procs p).pages s'.vm.mem = (s.procs p).pages s.vm.mem := by
    rw [Proc.pages_of_ne hp, Proc.pages_of_ne hp, hfoot]
  have hm : Moves img s.vm s'.vm ((s.procs p).pages s.vm.mem) ((s.procs p).pages s'.vm.mem) := by
    rw [hpages]
    exact Moves.change howns htf hfree hmem
  obtain ⟨hinv, hothers⟩ := h.step_proc hm (.inr ⟨hp, hlive'⟩)
    (hprocs.trans (update_eq_self p s.procs).symm) hfiles
  refine ⟨hinv, fun q => ?_⟩
  by_cases hq : q = p
  · subst hq
    refine ⟨by rw [hprocs, hpages], fun _ => ?_⟩
    rw [hprocs]
    exact ⟨hp, htr⟩
  · exact hothers q hq

/-- The kernel writes into the trapframe of a process, and goes on. -/
theorem writeFrame_bind {β : Type} {m : VmM Unit} (off : ℕ) {n : ℕ} {src : ℕ → UInt8}
    {k : Unit → SysM β}
    {R : β → State → Prop} (h : Inv img all eager s T cnt) (hp : (s.procs p).state ≠ .unused)
    (hm : m s.vm = .ok () (s.vm.setMem (Bytes.blit s.vm.mem ((s.procs p).trapframe + off) n src)))
    (hn : off + n ≤ pgsize)
    (hk : ∀ s', Inv img all eager s' T cnt → FileStep s s' → s'.files = s.files →
      Runs E (k ()) s' R) : Runs E (lift m >>= k) s R := by
  generalize hvm : s.vm.setMem (Bytes.blit s.vm.mem ((s.procs p).trapframe + off) n src) = vm' at hm
  have hlift : lift m s = .ok () { s with vm := vm' } := by rw [lift, hm]
  refine .of_eq_bind hlift ?_
  have hfree : vm'.freelist = s.vm.freelist := by
    rw [← hvm]
    rfl
  have hout : ∀ x, ¬ InPage (s.procs p).trapframe x → vm'.mem x = s.vm.mem x := by
    intro x hx
    rw [← hvm]
    refine Bytes.blit_outside _ _ ?_
    unfold InPage at hx
    omega
  obtain ⟨hinv, hspace⟩ : Inv img all eager { s with vm := vm' } T cnt ∧
      ∀ q, SameSpace s { s with vm := vm' } q := h.step_trapframe hp hfree hout rfl rfl
  exact hk _ hinv ⟨rfl, rfl, hspace⟩ rfl

/-- The loop of `kfork` over the open files gives the child the descriptors of its parent. -/
theorem dupFiles_runs {fds : List Fd} (h : Inv img all eager s T (refs s))
    (hnp : (s.procs np).state ≠ .unused) (hnone : ∀ fd ∈ fds, (s.procs np).ofile fd = none)
    (hnodup : fds.Nodup) :
    Runs E (dupFiles p np fds) s fun _ s' =>
      Inv img all eager s' T (refs s') ∧ s'.initproc = s.initproc ∧
      livePipes s'.files = livePipes s.files ∧ (∀ q, SameSpace s s' q) ∧
      ∃ o, s'.procs = update s.procs np { s.procs np with ofile := o } := by
  induction fds generalizing s with
  | nil =>
    refine .pure ⟨h, rfl, rfl, SameSpace.refl s, (s.procs np).ofile, ?_⟩
    exact (update_eq_self np s.procs).symm
  | cons fd fds ih =>
    rw [List.nodup_cons] at hnodup
    rw [dupFiles]
    refine .gets_bind ?_
    cases hfd : (s.procs p).ofile fd with
    | none =>
      exact ih h hnp (fun fd' hfd' => hnone fd' (List.mem_cons_of_mem _ hfd')) hnodup.2
    | some f =>
      refine (filedup_runs h (refs_pos hfd)).bind fun _ s1 ⟨h1, hstep1, hpipes1⟩ => ?_
      have hprocs1 := hstep1.procs
      have hnp1 : (s1.procs np).state ≠ .unused := by rwa [hprocs1]
      have hnone1 : (s1.procs np).ofile fd = none := by
        rw [hprocs1]
        exact hnone fd List.mem_cons_self
      obtain ⟨h2, hspace2⟩ := h1.withFd hnp1 fd (some f)
      refine .of_eq_bind (a := ()) (t := withFd s1 np fd (some f)) rfl ?_
      refine (ih ?_ ?_ ?_ hnodup.2).mono ?_
      · rwa [refs_open hnone1, refs_congr hprocs1]
      · rwa [withFd_state]
      · intro fd' hfd'
        rw [withFd_self, hprocs1]
        have hdiff : fd' ≠ fd := by
          rintro rfl
          exact hnodup.1 hfd'
        simpa [hdiff] using hnone fd' (List.mem_cons_of_mem _ hfd')
      · rintro _ s3 ⟨h3, hinit3, hpipes3, hspace3, o, hprocs3⟩
        refine ⟨h3, hinit3.trans hstep1.initproc, hpipes3.trans hpipes1, fun q => ?_, o, ?_⟩
        · exact ((hstep1.space q).trans (hspace2 q)).trans (hspace3 q)
        · rw [hprocs3, withFd_self, hprocs1]
          show update (setFd s1.procs np fd (some f)) np _ = _
          rw [setFd, update_idem, hprocs1]

/-- What is left of a process that `freeproc` frees. -/
theorem freeproc_inv (h : Inv img all eager s T cnt) (hp : (s.procs p).state ≠ .unused)
    (hofile : (s.procs p).ofile = fun _ => none) :
    Runs E (freeproc img p) s fun _ s' =>
      Inv img all eager s' T cnt ∧ AtSlot s s' p Proc.fresh ∧
      Moves img s.vm s'.vm ((s.procs p).pages s.vm.mem) ∅ ∧ ∀ q ≠ p, SameSpace s s' q := by
  have hlive := h.live hp
  have hpages : (s.procs p).pages s.vm.mem = _ := Proc.pages_of_ne hp
  have howns : Owns img s.vm ((s.procs p).pages s.vm.mem) := h.shares.owns (.proc p)
  rw [hpages] at howns ⊢
  refine (freeproc_runs (Built.full hlive.trapframe hlive.space hlive.apart) howns).mono ?_
  rintro _ s' ⟨hm, hslot⟩
  have hfreed : (s.procs p).freed = Proc.fresh := by
    rw [Proc.freed, hofile]
    rfl
  rw [hfreed] at hslot
  obtain ⟨hinv, hothers⟩ := h.step_proc
    (by rw [hpages, Proc.pages_fresh]; exact hm) (.inl rfl) hslot.procs hslot.files
  exact ⟨hinv, hslot, hm, hothers⟩

/-- The child that `kfork` has copied the memory for. -/
theorem Inv.copied {vm' : Vm} {pr : Proc} (h : Inv img all eager s T cnt)
    (hp : (s.procs p).state ≠ .unused) (hnp : (s.procs np).state ≠ .unused)
    (hcopied : Copied img s.vm vm' (s.procs p).pagetable (s.procs np).pagetable
      (pgroundup (s.procs p).sz))
    (hproc : ProcSpace img vm' (s.procs np).pagetable (s.procs np).trapframe (s.procs p).sz)
    (hpr : pr = { s.procs np with sz := (s.procs p).sz }) (hvm : s'.vm = vm')
    (hslot : AtSlot s s' np pr) :
    Inv img all eager s' T cnt ∧ ∀ q ≠ np, SameSpace s s' q := by
  subst hvm
  refine h.step_space hnp hcopied.reshapes.footprint_moves hproc (fun heager va hva => ?_) hpr
    hslot.procs hslot.files
  cases he : translate s.vm.mem (s.procs p).pagetable va with
  | none => exact absurd he ((h.live hp).dense heager va hva)
  | some e =>
    obtain ⟨r, -, -, hr, -⟩ := hcopied.page va hva e he
    rw [hr]
    exact Option.some_ne_none _

/-- `kfork`. -/
theorem kfork_runs (h : Settled img all T eager s) (hp : Active s p) :
    Runs E (kfork img p) s fun r s' => Post img all T eager p s r s' := by
  unfold kfork
  refine (allocproc_runs (p := p) h.inv).bind ?_
  rintro _ s1 (⟨rfl, h1, hstep1, hspace1⟩ | ⟨np, npr, rfl, hfresh, hslot1, hnew, h1, hspace1⟩)
  · exact .pure (Post.of_kept h h1 (FilesKept.of_eq hstep1.files) hstep1.procs
      hstep1.within _)
  have hne : p ≠ np := by
    rintro rfl
    exact hp.1 (by rw [hfresh]; rfl)
  have hnp1 : (s1.procs np).state ≠ .unused := by
    rw [hslot1.self, hnew.state]
    decide
  have hp1 : (s1.procs p).state ≠ .unused := by
    rw [hslot1.of_ne hne]
    exact hp.1
  have hofile1 : (s1.procs np).ofile = fun _ => none := by
    rw [hslot1.self]
    exact hnew.ofile
  have hsz1 : (s1.procs np).sz = 0 := by
    rw [hslot1.self]
    exact hnew.sz
  refine .gets_bind (.gets_bind ?_)
  have hchild := (h1.live hnp1).space
  have hchild0 := hchild
  rw [hsz1] at hchild0
  have hdisj : ∀ a ∈ footprint s1.vm.mem (s1.procs p).pagetable,
      a ∉ footprint s1.vm.mem (s1.procs np).pagetable := by
    intro a ha hb
    refine h1.shares.disjoint (.proc p) (.proc np) (fun heq => hne (Owner.proc.inj heq)) a ?_ ?_
    · show a ∈ (s1.procs p).pages s1.vm.mem
      rw [Proc.pages_of_ne hp1]
      exact .inr ha
    · show a ∈ (s1.procs np).pages s1.vm.mem
      rw [Proc.pages_of_ne hnp1]
      exact .inr hb
  refine lift_bind (uvmcopy_runs (h1.live hp1).space hchild0 hdisj) ?_
  rintro r vm2 (⟨rfl, hcopied, hproc⟩ | ⟨rfl, hm⟩)
  · rw [if_neg (by decide)]
    refine setProc_bind (AtSlot.refl s1 np).vm fun s3 hslot3 hvm3 => ?_
    obtain ⟨h3, -⟩ := h1.copied hp1 hnp1 hcopied hproc rfl hvm3 hslot3
    have hnp3 : (s3.procs np).state ≠ .unused := by
      rw [hslot3.self]
      exact hnp1
    have htf3 : (s3.procs np).trapframe = (s1.procs np).trapframe := by rw [hslot3.self]
    refine writeFrame_bind 0 h3 hnp3 (by rw [htf3]; rfl) (by decide) ?_
    intro s4 h4 hstep4 hfiles4
    refine writeFrame_bind 112 h4 (by rwa [hstep4.procs])
      (by rw [hstep4.procs, htf3]; rfl) (by decide) ?_
    intro s5 h5 hstep5 hfiles5
    have hprocs5 : s5.procs = s3.procs := (hstep4.trans hstep5).procs
    have hofile5 : ∀ q, (s5.procs q).ofile = (s.procs q).ofile := by
      intro q
      rw [hprocs5]
      by_cases hq : q = np
      · subst hq
        rw [hslot3.self, hfresh]
        exact hofile1
      · rw [hslot3.of_ne hq, hslot1.of_ne hq]
    have hnone : ∀ fd ∈ List.finRange nofile, (s5.procs np).ofile fd = none := by
      intro fd _
      rw [hofile5, hfresh]
      rfl
    refine (dupFiles_runs (by rwa [refs_eq hofile5]) (by rwa [hprocs5]) hnone
      (List.nodup_finRange _)).bind ?_
    rintro _ s6 ⟨h6, hinit6, hpipes6, -, o, hprocs6⟩
    have hnp6 : (s6.procs np).state ≠ .unused := by
      rw [hprocs6, update_self, hprocs5]
      exact hnp3
    refine setProc_bind (AtSlot.refl s6 np) fun s7 hslot7 hvm7 => ?_
    refine setProc_bind hslot7 fun s8 hslot8 hvm8 => .pure ?_
    have hq8 : ∀ q ≠ np, s8.procs q = s.procs q := by
      intro q hq
      rw [hslot8.of_ne hq, hprocs6, update_of_ne hq, hprocs5, hslot3.of_ne hq,
        hslot1.of_ne hq]
    obtain ⟨h8, -⟩ := h6.step_procs (hvm8.trans hvm7) (fun q => by
      by_cases hq : q = np
      · subst hq
        rw [hslot8.self]
        exact .inr ⟨hnp6, by simp, rfl, rfl, rfl⟩
      · rw [hslot8.of_ne hq]
        exact Proc.SameMem.refl _) hslot8.files
    have hrefs8 : refs s8 = refs s6 := refs_eq fun q => by
      by_cases hq : q = np
      · subst hq
        rw [hslot8.self]
      · rw [hslot8.of_ne hq]
    have hpipes : livePipes s8.files = livePipes s.files := by
      rw [hslot8.files, hpipes6, hfiles5, hfiles4, hslot3.files, hslot1.files]
    refine ⟨⟨by rwa [hrefs8], fun q hz => ?_, fun q => ?_⟩, fun hr => by omega, fun a ha hna => ?_⟩
    · by_cases hq : q = np
      · subst hq
        rw [hslot8.self] at hz
        cases hz
      · rw [hq8 q hq] at hz ⊢
        exact h.zombie q hz
    · by_cases hq : q = np
      · subst hq
        rw [hslot8.self]
        simp
      · rw [hq8 q hq]
        exact h.ready q
    · rw [hpipes] at hna
      exact absurd ha hna
  · rw [if_pos (by decide)]
    have htouch : Touches img s1.vm vm2 (s1.procs np).pagetable (s1.procs np).trapframe
        (s1.procs np).sz := Touches.of_same hchild hm
    obtain ⟨h2, hstep2⟩ := h1.touch hnp1 htouch
    refine (freeproc_inv h2 hnp1 hofile1).bind ?_
    rintro _ s3 ⟨h3, hslot3, -, hspace3⟩
    have hprocs3 : s3.procs = s.procs := by
      rw [hslot3.procs]
      show update s1.procs np Proc.fresh = s.procs
      rw [hslot1.procs, update_idem, ← hfresh, update_eq_self]
    have hspace : ∀ q, SameSpace s s3 q := by
      intro q
      by_cases hq : q = np
      · subst hq
        refine ⟨?_, fun hstate => absurd (by rw [hfresh]; rfl) hstate⟩
        rw [hprocs3, hfresh, Proc.pages_fresh, Proc.pages_fresh]
      · exact ((hspace1 q hq).trans (hstep2.within.others q hq)).trans (hspace3 q hq)
    have hkept3 : FilesKept (refs s) s s3 := FilesKept.of_eq (hslot3.files.trans hslot1.files)
    exact .pure (Post.of_kept h h3 hkept3 hprocs3 (Within.of_same hspace) _)

/-! ## Exit and wait -/

/-- The loop of `kexit` over the open files closes them. -/
theorem closeFiles_runs {fds : List Fd} (h : Inv img all eager s T (refs s))
    (hp : (s.procs p).state ≠ .unused) :
    Runs E (closeFiles img p fds) s fun _ s' =>
      Inv img all eager s' T (refs s') ∧ s'.initproc = s.initproc ∧ (∀ q, SameSpace s s' q) ∧
      ∃ o, s'.procs = update s.procs p { s.procs p with ofile := o } ∧
        ∀ fd, o fd = none ∨ fd ∉ fds ∧ o fd = (s.procs p).ofile fd := by
  induction fds generalizing s with
  | nil =>
    refine .pure ⟨h, rfl, SameSpace.refl s, (s.procs p).ofile, ?_, fun fd => .inr ?_⟩
    · exact (update_eq_self p s.procs).symm
    · exact ⟨List.not_mem_nil, rfl⟩
  | cons fd fds ih =>
    rw [closeFiles]
    refine .gets_bind ?_
    cases hfd : (s.procs p).ofile fd with
    | none =>
      refine (ih h hp).mono ?_
      rintro _ s1 ⟨h1, hinit1, hspace1, o, hprocs1, ho⟩
      refine ⟨h1, hinit1, hspace1, o, hprocs1, fun fd' => (ho fd').elim .inl fun hkeep => ?_⟩
      by_cases hdiff : fd' = fd
      · rw [hdiff] at hkeep ⊢
        exact .inl (hkeep.2.trans hfd)
      · exact .inr ⟨List.not_mem_cons_of_ne_of_not_mem hdiff hkeep.1, hkeep.2⟩
    | some f =>
      refine (fileclose_runs h (refs_pos hfd)).bind fun _ s1 ⟨h1, hstep1, _⟩ => ?_
      have hprocs1 := hstep1.procs
      have hp1 : (s1.procs p).state ≠ .unused := by rwa [hprocs1]
      have hfd1 : (s1.procs p).ofile fd = some f := by rwa [hprocs1]
      obtain ⟨h2, hspace2⟩ := h1.withFd hp1 fd none
      refine .of_eq_bind (clearFd_apply _ _ _) ?_
      refine (ih ?_ ?_).mono ?_
      · rwa [refs_close hfd1, refs_congr hprocs1]
      · rwa [withFd_state]
      rintro _ s3 ⟨h3, hinit3, hspace3, o, hprocs3, ho⟩
      refine ⟨h3, hinit3.trans hstep1.initproc, fun q => ?_, o, ?_, fun fd' => ?_⟩
      · exact ((hstep1.space q).trans (hspace2 q)).trans (hspace3 q)
      · rw [hprocs3, withFd_self, hprocs1]
        show update (setFd s1.procs p fd none) p _ = _
        rw [setFd, update_idem, hprocs1]
      · refine (ho fd').elim .inl fun hkeep => ?_
        rw [withFd_self, hprocs1] at hkeep
        by_cases hdiff : fd' = fd
        · rw [hdiff] at hkeep ⊢
          exact .inl (hkeep.2.trans (update_self _ _ _))
        · exact .inr ⟨List.not_mem_cons_of_ne_of_not_mem hdiff hkeep.1,
            hkeep.2.trans (update_of_ne hdiff _ _)⟩

/-- `reparent` changes parents only. -/
theorem reparent_runs (h : Inv img all eager s T cnt) :
    Runs E (reparent p) s fun _ s' =>
      Inv img all eager s' T cnt ∧ (∀ q, SameSpace s s' q) ∧ s'.files = s.files ∧
      ∀ q, (s'.procs q).state = (s.procs q).state ∧ (s'.procs q).ofile = (s.procs q).ofile := by
  have hmem : ∀ q, (s.procs q).SameMem (if (s.procs q).parent = some p
      then { s.procs q with parent := s.initproc } else s.procs q) := by
    intro q
    split
    next hparent =>
      have hstate : (s.procs q).state ≠ .unused := by
        intro hunused
        rw [h.fresh hunused] at hparent
        cases hparent
      exact .inr ⟨hstate, hstate, rfl, rfl, rfl⟩
    next => exact Proc.SameMem.refl _
  have hstep : Inv img all eager { s with
      procs := fun q => if (s.procs q).parent = some p
        then { s.procs q with parent := s.initproc } else s.procs q } T cnt ∧
      ∀ q, SameSpace s _ q := h.step_procs rfl hmem rfl
  refine .modify ⟨hstep.1, hstep.2, rfl, fun q => ?_⟩
  dsimp only
  split <;> exact ⟨rfl, rfl⟩

/-- `kexit`. Only the first process must not exit. -/
theorem kexit_runs (h : Settled img all T eager s) (hp : Active s p) (status : ℤ)
    (hE : s.initproc = some p → E "init exiting") :
    Runs E (kexit img p status) s fun _ s' =>
      Post img all T eager p s 0 s' ∧ (s'.procs p).state = .zombie := by
  unfold kexit
  refine .gets_bind ?_
  by_cases hinit : s.initproc = some p
  · rw [if_pos hinit]
    exact .panic (hE hinit)
  rw [if_neg hinit]
  refine (closeFiles_runs h.inv hp.1).bind ?_
  rintro _ s1 ⟨h1, hinit1, hspace1, o, hprocs1, ho⟩
  have hnone : o = fun _ => none := by
    funext fd
    exact (ho fd).elim id fun hkeep => absurd (List.mem_finRange fd) hkeep.1
  have hp1 : s1.procs p = { s.procs p with ofile := fun _ => none } := by
    rw [hprocs1, update_self, hnone]
  have hq1 : ∀ q ≠ p, s1.procs q = s.procs q := by
    intro q hq
    rw [hprocs1, update_of_ne hq]
  refine (reparent_runs h1).bind ?_
  rintro _ s2 ⟨h2, hspace2, hfiles2, hsame2⟩
  have hp2 : (s2.procs p).state ≠ .unused := by
    rw [(hsame2 p).1, hp1]
    exact hp.1
  refine setProc_runs (AtSlot.refl s2 p) fun s3 hslot3 hvm3 => ?_
  obtain ⟨h3, hspace3⟩ := h2.step_procs hvm3 (fun q => by
    by_cases hq : q = p
    · subst hq
      rw [hslot3.self]
      exact .inr ⟨hp2, by simp, rfl, rfl, rfl⟩
    · rw [hslot3.of_ne hq]
      exact Proc.SameMem.refl _) hslot3.files
  have hrefs3 : refs s3 = refs s1 := refs_eq fun q => by
    by_cases hq : q = p
    · subst hq
      rw [hslot3.self]
      exact (hsame2 q).2
    · rw [hslot3.of_ne hq]
      exact (hsame2 q).2
  have hspace : ∀ q, SameSpace s s3 q :=
    fun q => ((hspace1 q).trans (hspace2 q)).trans (hspace3 q)
  refine ⟨⟨⟨by rwa [hrefs3], fun q hz => ?_, fun q => ?_⟩, (fun hr => by cases hr),
    fun a ha hna => h.inv.freed h3 hspace ha hna⟩, by rw [hslot3.self]⟩
  · by_cases hq : q = p
    · subst hq
      rw [hslot3.self]
      show (s2.procs q).ofile = _
      rw [(hsame2 q).2, hp1]
    · rw [hslot3.of_ne hq] at hz ⊢
      rw [(hsame2 q).2, hq1 q hq]
      rw [(hsame2 q).1, hq1 q hq] at hz
      exact h.zombie q hz
  · by_cases hq : q = p
    · subst hq
      rw [hslot3.self]
      simp
    · rw [hslot3.of_ne hq, (hsame2 q).1, hq1 q hq]
      exact h.ready q

/-- `kwait` has freed the child `q`. -/
structure Reaped (p q : ProcId) (s : State) (pid : ℤ) (s' : State) : Prop where
  /-- It was a child of the caller. -/
  parent : (s.procs q).parent = some p
  /-- It had exited. -/
  zombie : (s.procs q).state = .zombie
  /-- Its process ID is returned. -/
  pid_eq : pid = (s.procs q).pid
  /-- Its slot is clean. -/
  slot : s'.procs q = Proc.fresh
  /-- Its pages are free. -/
  pages : ∀ a ∈ (s.procs q).pages s.vm.mem, a ∈ s'.vm.freelist

/-- Freeing a child that has exited. -/
theorem reap_runs (h : Settled img all T eager s) (hp : Active s p)
    (hparent : (s.procs q).parent = some p) (hz : (s.procs q).state = .zombie)
    (h1 : Inv img all eager s' T (refs s)) (hstep1 : OwnStep p s s') :
    Runs E (freeproc img q >>= fun _ => pure (some ((s.procs q).pid : ℤ))) s' fun r s'' =>
      ∃ n, r = some n ∧ Post img all T eager p s n s'' ∧ Reaped p q s n s'' := by
  have hqp : q ≠ p := by
    rintro rfl
    exact hp.2 hz
  have hprocs1 := hstep1.procs
  have hne : (s'.procs q).state ≠ .unused := by
    rw [hprocs1, hz]
    decide
  have hofile : (s'.procs q).ofile = fun _ => none := by
    rw [hprocs1]
    exact h.zombie q hz
  refine (freeproc_inv h1 hne hofile).bind ?_
  rintro _ s2 ⟨h2, hslot2, hm2, hspace2⟩
  have hrefs : refs s2 = refs s := refs_eq fun q' => by
    by_cases hq : q' = q
    · subst hq
      rw [hslot2.self, h.zombie q' hz]
      rfl
    · rw [hslot2.of_ne hq, hprocs1]
  have hfiles : s2.files = s.files := hslot2.files.trans hstep1.files
  refine .pure ⟨_, rfl, ⟨⟨by rwa [hrefs], fun q' hz' => ?_, fun q' => ?_⟩, fun hr => ?_,
    fun a ha hna => ?_⟩, hparent, hz, rfl, hslot2.self, fun a ha => ?_⟩
  · by_cases hq : q' = q
    · subst hq
      rw [hslot2.self]
      rfl
    · rw [hslot2.of_ne hq, hprocs1] at hz' ⊢
      exact h.zombie q' hz'
  · by_cases hq : q' = q
    · subst hq
      rw [hslot2.self]
      decide
    · rw [hslot2.of_ne hq, hprocs1]
      exact h.ready q'
  · omega
  · rw [hfiles] at hna
    exact absurd ha hna
  · rw [← (hstep1.within.others q hqp).1] at ha
    exact ((hm2.total a).mpr (.inl ha)).elim (fun hempty => hempty.elim) id

/-- `kwait` reaps a child, fails, or goes to sleep. -/
theorem kwait_runs (h : Settled img all T eager s) (hp : Active s p) (addr : ℕ) :
    Runs E (kwait img p addr) s fun r s' =>
      (r = none ∧ s' = s) ∨
      ∃ n, r = some n ∧ Post img all T eager p s n s' ∧ (n = -1 ∨ ∃ q, Reaped p q s n s') := by
  unfold kwait
  refine .gets_bind ?_
  cases hfind : (List.finRange nproc).find? fun q =>
      (s.procs q).parent = some p ∧ (s.procs q).state = .zombie with
  | none =>
    refine .gets_bind (.gets_bind ?_)
    split
    · exact .pure (.inr ⟨-1, rfl, Post.refl h _, .inl rfl⟩)
    · exact .pure (.inl ⟨rfl, rfl⟩)
  | some q =>
    obtain ⟨hparent, hz⟩ : (s.procs q).parent = some p ∧ (s.procs q).state = .zombie := by
      simpa using List.find?_some hfind
    refine .gets_bind ?_
    -- After the status has been copied out, or not.
    have hrest : ∀ (r : ℤ) s1, Inv img all eager s1 T (refs s) → OwnStep p s s1 →
        Runs E (if r < 0 then return some (-1) else do
          freeproc img q
          return some ((s.procs q).pid : ℤ)) s1 fun r s' =>
            (r = none ∧ s' = s) ∨ ∃ n, r = some n ∧ Post img all T eager p s n s' ∧
              (n = -1 ∨ ∃ q, Reaped p q s n s') := by
      intro r s1 h1 hstep1
      split
      · exact .pure (.inr ⟨-1, rfl, Post.of_kept h h1 (FilesKept.of_eq hstep1.files)
          hstep1.procs hstep1.within _, .inl rfl⟩)
      · refine (reap_runs h hp hparent hz h1 hstep1).mono ?_
        rintro _ s2 ⟨n, hn, hpost, hreaped⟩
        exact .inr ⟨n, hn, hpost, .inr ⟨q, hreaped⟩⟩
    split
    · exact hrest 0 s h.inv (OwnStep.refl p s)
    · refine (copyoutTo_runs h.inv hp.1 _ _ _).bind ?_
      rintro r s1 ⟨-, h1, hstep1⟩
      exact hrest r s1 h1 hstep1

end RiscvKernel.Sys
