import RiscvKernel.Sys.Runs

/-!
# What holds between calls

In every state that the system reaches, user pages are private to one process, every page of the
allocator has exactly one owner, and every open file is counted by the descriptors that refer to
it. Memory that has been grown lazily is not part of this: an access to it from user code kills
the process.
-/

namespace RiscvKernel.Sys

open Threads

variable {img : KernelImage} {all T : Set ℕ} {eager : Prop} {s0 s s' : State} {p q : ProcId}

/-! ## A small system -/

/-- A system with a dozen pages. -/
def bootState : State where
  vm := bootVm
  procs := fun _ => Proc.fresh
  initproc := none
  nextpid := 1
  files := fun _ => File.fresh

/-- The kernel has started. -/
theorem bootState_booted : Booted tinyImage ∅ bootState :=
  ⟨rfl, rfl, bootVm_owns, fun _ ha => ha.elim⟩

/-- The first process. -/
def initProc : ProcId := ⟨0, by decide⟩

/-- Its child. -/
def childProc : ProcId := ⟨1, by decide⟩

/-- The first process has been made. -/
def initState : State := (userinit tinyImage bootState).state

/-- The first process can be made. -/
theorem initState_made :
    (userinit tinyImage bootState).value = some () ∧ Active initState initProc := by
  decide +kernel

/-- `userinit` has run. -/
theorem initState_reach (ok : State → Call → Prop) : Reach tinyImage ok bootState initState :=
  ⟨initState, Outcome.eq_ok initState_made.1, Seq.Calls.start⟩

/-- One more call. -/
theorem Reach.next {ok : State → Call → Prop} (h : Reach img ok s0 s) (c : Call) {r : Option ℤ}
    (hok : ok s c) (hr : (c.run img s).value = some r) : Reach img ok s0 (c.run img s).state := by
  obtain ⟨s1, hinit, hcalls⟩ := h
  exact ⟨s1, hinit, hcalls.step hok (Outcome.eq_ok hr)⟩

/-- The first process grows its memory by a page. -/
def growCall : Call := .sysSbrk initProc 4096 sbrkEager

/-- It has grown its memory. -/
def grownState : State := (growCall.run tinyImage initState).state

theorem growCall_allowed : Allowed initState growCall :=
  ⟨initState_made.2, show -2 ^ 31 ≤ (4096 : ℤ) ∧ (4096 : ℤ) < 2 ^ 31 by decide⟩

/-- It has a second page, taken from the free pages. -/
theorem grownState_made :
    (growCall.run tinyImage initState).value = some (some 0) ∧ Active grownState initProc ∧
      5 < (grownState.procs initProc).sz ∧ 5 < pgroundup (grownState.procs initProc).sz ∧
      (translate grownState.vm.mem (grownState.procs initProc).pagetable 5).isSome = true ∧
      bootRoot ∉ grownState.vm.freelist := by
  decide +kernel

theorem grownState_reach {ok : State → Call → Prop} (hok : ok initState growCall) :
    Reach tinyImage ok bootState grownState :=
  (initState_reach ok).next growCall (r := some 0) hok grownState_made.1

/-! ## Address spaces -/

/-- The translation of a user address by a process. -/
def userTranslate (s : State) (p : ProcId) (va : ℕ) : Option ℕ :=
  translate s.vm.mem (s.procs p).pagetable va

/-- A page that a process maps is one of its pages. -/
theorem userPage_mem {va e : ℕ} (hp : (s.procs p).state ≠ .unused) (hva : va < trapframeVa)
    (he : userTranslate s p va = some e) : pte2pa e ∈ share s T (.proc p) := by
  show _ ∈ (s.procs p).pages s.vm.mem
  rw [Proc.pages_of_ne hp]
  exact .inr (.inr ⟨va, hva, e, he, rfl⟩)

/-- The trapframe and the trampoline are mapped in every address space. -/
theorem kernelMap_trapframe (tf : ℕ) :
    kernelMap img tf trapframeVa = some (pteFor tf (pteR ||| pteW)) := by
  rw [kernelMap, if_neg (by decide), if_pos rfl]

theorem kernelMap_trampoline (tf : ℕ) :
    kernelMap img tf trampolineVa = some (pteFor img.trampoline (pteR ||| pteX)) := by
  rw [kernelMap, if_pos rfl]

/-- A call returns, unless the first process exits. -/
theorem Settled.returns {c : Call} (h : Settled img all T False s) (hc : Allowed s c) :
    (∃ r s', c.run img s = .ok r s') ∨ ∃ s', c.run img s = .panic "init exiting" s' := by
  rcases (call_runs h hc False.elim).cases with ⟨r, s', heq, -⟩ | ⟨msg, s', heq, rfl⟩
  · exact .inl ⟨r, s', heq⟩
  · exact .inr ⟨s', heq⟩

/-- In every state between calls, a process maps the trapframe, the trampoline and pages below its
size, each of the latter a page of the allocator that is mapped nowhere else; and no call panics
except when the first process exits. -/
theorem address_space_invariant (hb : Booted img T s0) (hr : Reach img Allowed s0 s) :
    (∀ p, (s.procs p).state ≠ .unused →
      (s.procs p).sz ≤ trapframeVa ∧
      userTranslate s p trapframeVa = some (pteFor (s.procs p).trapframe (pteR ||| pteW)) ∧
      userTranslate s p trampolineVa = some (pteFor img.trampoline (pteR ||| pteX)) ∧
      (∀ va < maxva, ∀ e, userTranslate s p va = some e →
        va / pgsize = trapframeVa / pgsize ∨ va / pgsize = trampolineVa / pgsize ∨
        va < pgroundup (s.procs p).sz) ∧
      ∀ va < pgroundup (s.procs p).sz, ∀ e, userTranslate s p va = some e →
        IsPage img (pte2pa e) ∧ pte2pa e ∉ s.vm.freelist ∧
        ∀ q, (s.procs q).state ≠ .unused → ∀ va' < pgroundup (s.procs q).sz, ∀ e',
          userTranslate s q va' = some e' → pte2pa e' = pte2pa e →
          q = p ∧ va' / pgsize = va / pgsize) ∧
    ∀ c, Allowed s c → (∃ r s', c.run img s = .ok r s') ∨
      ∃ s', c.run img s = .panic "init exiting" s' := by
  have h : Settled img (initialPages T s0) T False s :=
    hr.settled hb fun s c hc => ⟨hc, False.elim⟩
  constructor
  · intro p hp
    have hlive := h.inv.live hp
    have hspace := hlive.space
    have htop : trampolineVa < 2 ^ 39 := by decide
    refine ⟨hspace.sz_le, ?_, ?_, fun va hva e he => ?_, fun va hva e he => ?_⟩
    · rw [userTranslate, hspace.kernel _ trapframeVa_lt le_rfl, kernelMap_trapframe]
    · rw [userTranslate, hspace.kernel _ htop (by decide), kernelMap_trampoline]
    · exact hspace.mapped hva he
    · have hva' := hva.trans_le hspace.up_le
      have hmem : pte2pa e ∈ share s T (.proc p) := userPage_mem hp hva' he
      refine ⟨h.inv.shares.isPage hmem, (h.inv.shares.owns _).inUse _ hmem, ?_⟩
      intro q hq va1 hva1 e1 he1 heq
      have hva1' := hva1.trans_le (h.inv.live hq).space.up_le
      have hqp : q = p := by
        by_contra hne
        have hmem1 : pte2pa e1 ∈ share s T (.proc q) := userPage_mem hq hva1' he1
        rw [heq] at hmem1
        exact h.inv.shares.disjoint (.proc q) (.proc p) (by simpa using hne) _ hmem1 hmem
      subst hqp
      exact ⟨rfl, hspace.space.user.inj va1 hva1' va hva' e1 e he1 he heq⟩
  · exact fun c hc => h.returns hc

theorem grownState_private :
    ∃ e, userTranslate grownState initProc 5 = some e ∧ IsPage tinyImage (pte2pa e) ∧
      pte2pa e ∉ grownState.vm.freelist := by
  obtain ⟨-, hactive, -, hsz, hsome, -⟩ := grownState_made
  obtain ⟨e, he⟩ := Option.isSome_iff_exists.mp hsome
  have hinv := (address_space_invariant bootState_booted (grownState_reach growCall_allowed)).1
    initProc hactive.1
  obtain ⟨hpage, hused, -⟩ := hinv.2.2.2.2 5 hsz e he
  exact ⟨e, he, hpage, hused⟩

/-! ## Pages -/

/-- A page that was free before a call that failed, and is not free any more, was filled into the
address space of the caller. -/
theorem Undone.filled {a : ℕ} (h : Settled img all T eager s) (h' : Settled img all T eager s')
    (hp : (s.procs p).state ≠ .unused) (hu : Undone p s s') (ha : a ∈ s.vm.freelist)
    (hna : a ∉ s'.vm.freelist) :
    a ∈ tables s'.vm.mem (s'.procs p).pagetable ∨
      ∃ va < pgroundup (s.procs p).sz, ∃ e, userTranslate s p va = none ∧
        userTranslate s' p va = some e ∧ pte2pa e = a := by
  have hfree : ∀ o, a ∉ share s T o := fun o ho => (h.inv.shares.owns o).inUse a ho ha
  obtain ⟨hp', hkeep⟩ := hu.within.own hp
  obtain hfl | ⟨o, ho⟩ := (h'.inv.shares.total a).mp ((h.inv.shares.total a).mpr (.inl ha))
  · exact absurd hfl hna
  -- Only the share of the caller may have grown.
  have hself : o = .proc p := by
    by_contra hne
    refine hfree o ?_
    cases o with
    | proc q =>
      have hsame := (hu.within.others q fun hq => hne (by rw [hq])).1
      rwa [share, hsame] at ho
    | pipes => rwa [share, hu.pipes] at ho
    | kernel => exact ho
  subst hself
  have hpages : a ∈ (s'.procs p).pages s'.vm.mem := ho
  rw [Proc.pages_of_ne hp'] at hpages
  rcases hpages with htf | htable | ⟨va, hva, e, he, hpa⟩
  · exfalso
    refine hfree (.proc p) ?_
    show a ∈ (s.procs p).pages s.vm.mem
    rw [Proc.pages_of_ne hp, ← hu.procs]
    exact .inl htf
  · exact .inl htable
  · right
    have hnone : userTranslate s p va = none := by
      cases hold : userTranslate s p va with
      | none => rfl
      | some e0 =>
        have he0 := hkeep va hva e0 hold
        rw [he] at he0
        cases he0
        exact absurd (userPage_mem hp hva hold) (hpa ▸ hfree (.proc p))
    refine ⟨va, ?_, e, hnone, he, hpa⟩
    by_contra hup
    have hout := (h'.inv.live hp').space.user va (by rw [hu.procs]; omega) hva
    rw [hout] at he
    cases he

/-- In every state between calls, the free list and the owners share out the pages that were free
at first: no page is lost, is free twice, or has two owners. A call that fails keeps only what has
been filled into the address space of its caller, and reaping a child frees all its pages. -/
theorem pages_conserved (hb : Booted img T s0) (hr : Reach img Allowed s0 s) :
    s.vm.freelist.Nodup ∧
    (∀ a, a ∈ initialPages T s0 ↔ a ∈ s.vm.freelist ∨ ∃ o, a ∈ share s T o) ∧
    (∀ o, ∀ a ∈ share s T o, a ∉ s.vm.freelist ∧ ∀ o', a ∈ share s T o' → o' = o) ∧
    (∀ p, (s.procs p).state ≠ .unused →
      (s.procs p).trapframe ∉ footprint s.vm.mem (s.procs p).pagetable ∧
      ∀ a ∈ pagesOf (userTranslate s p), a ∉ tables s.vm.mem (s.procs p).pagetable) ∧
    ∀ c r s', Allowed s c → c.run img s = .ok r s' →
      (r = some (-1) → s'.procs = s.procs ∧ ∀ a ∈ s.vm.freelist, a ∉ s'.vm.freelist →
        a ∈ tables s'.vm.mem (s'.procs c.proc).pagetable ∨
        ∃ va < pgroundup (s.procs c.proc).sz, ∃ e, userTranslate s c.proc va = none ∧
          userTranslate s' c.proc va = some e ∧ pte2pa e = a) ∧
      ∀ p addr n, c = .kwait p addr → r = some n → n ≠ -1 → ∃ q,
        (s.procs q).parent = some p ∧ (s.procs q).state = .zombie ∧ n = (s.procs q).pid ∧
        ∀ a ∈ (s.procs q).pages s.vm.mem, a ∈ s'.vm.freelist := by
  have h : Settled img (initialPages T s0) T False s :=
    hr.settled hb fun s c hc => ⟨hc, False.elim⟩
  have hshares := h.inv.shares
  refine ⟨(hshares.owns .kernel).nodup, hshares.total, fun o a ha => ?_, fun p hp => ?_,
    fun c r s' hc hrun => ?_⟩
  · refine ⟨(hshares.owns o).inUse a ha, fun o' ha' => ?_⟩
    by_contra hne
    exact hshares.disjoint o' o hne a ha' ha
  · exact ⟨(h.inv.live hp).apart, (h.inv.live hp).space.space.notTable⟩
  · have hcalled := (call_runs h hc False.elim).of_ok hrun
    refine ⟨fun hfail => ?_, fun p addr n heq hn hne => ?_⟩
    · have hu := hcalled.undone hfail
      exact ⟨hu.procs, fun a ha hna => hu.filled h hcalled.settled hc.1.1 ha hna⟩
    · obtain ⟨q, hq⟩ := hcalled.reaped p addr n heq hn hne
      exact ⟨q, hq.parent, hq.zombie, hq.pid_eq, hq.pages⟩

theorem grownState_conserved :
    bootRoot ∉ grownState.vm.freelist ∧ ∃ o, bootRoot ∈ share grownState ∅ o := by
  have hmem : bootRoot ∈ initialPages ∅ bootState :=
    .inl (show bootRoot ∈ bootVm.freelist by decide)
  have hused : bootRoot ∉ grownState.vm.freelist := grownState_made.2.2.2.2.2
  obtain ⟨-, htotal, -⟩ := pages_conserved bootState_booted (grownState_reach growCall_allowed)
  exact ⟨hused, ((htotal bootRoot).mp hmem).resolve_left hused⟩

/-! ## Open files -/

/-- An end of a pipe has a descriptor. -/
theorem FileInv.ref_pos {files : FileId → File} {mem : ℕ → UInt8} {cnt : FileId → ℕ} {f : FileId}
    {a : ℕ} {w : Bool} (h : FileInv files mem cnt) (hf : IsEnd files f a w) :
      0 < (files f).ref := by
  have hne : (files f).ref ≠ 0 := by
    intro hz
    have htype := h.closed f hz
    rw [hf.1] at htype
    cases htype
  have href := h.ref f
  omega

/-- In every state between calls, the counter of an open file is the number of descriptors that
refer to it, and the flags of a pipe tell which of its ends are open files. A call that fails
leaves the descriptors and the counters as they were, a pipe is freed when its last end is closed,
and no call panics except when the first process exits. -/
theorem file_refs_exact (hb : Booted img T s0) (hr : Reach img Allowed s0 s) :
    s.vm.freelist.Nodup ∧ (∀ f, (s.files f).ref = refs s f) ∧
    (∀ f, (s.files f).ref = 0 → (s.files f).type = .none) ∧
    (∀ f, (s.files f).type = .pipe → (s.files f).pipe ∉ s.vm.freelist ∧
      ∀ w, (Bytes.num s.vm.mem ((s.files f).pipe + endOff w) 4 = 0 ∨
          Bytes.num s.vm.mem ((s.files f).pipe + endOff w) 4 = 1) ∧
        (Bytes.num s.vm.mem ((s.files f).pipe + endOff w) 4 = 1 ↔
          ∃ g, 0 < (s.files g).ref ∧ IsEnd s.files g (s.files f).pipe w)) ∧
    (∀ c, Allowed s c → (∃ r s', c.run img s = .ok r s') ∨
      ∃ s', c.run img s = .panic "init exiting" s') ∧
    ∀ c r s', Allowed s c → c.run img s = .ok r s' →
      (r = some (-1) → (∀ p, (s'.procs p).ofile = (s.procs p).ofile) ∧
        ∀ f, (s'.files f).ref = (s.files f).ref) ∧
      ∀ a ∈ livePipes s.files, (a ∈ s'.vm.freelist ↔ a ∉ livePipes s'.files) := by
  have h : Settled img (initialPages T s0) T False s :=
    hr.settled hb fun s c hc => ⟨hc, False.elim⟩
  have hpipe : ∀ {s : State}, Settled img (initialPages T s0) T False s →
      ∀ a ∈ livePipes s.files, a ∉ s.vm.freelist := fun h a ha =>
    (h.inv.shares.owns .pipes).inUse a ha
  refine ⟨(h.inv.shares.owns .kernel).nodup, h.inv.files.ref, h.inv.files.closed, fun f hf => ?_,
    fun c hc => ?_, fun c r s' hc hrun => ?_⟩
  · have hlive : (s.files f).pipe ∈ livePipes s.files := ⟨f, hf, rfl⟩
    refine ⟨hpipe h _ hlive, fun w => ?_⟩
    by_cases hex : ∃ g, IsEnd s.files g (s.files f).pipe w
    · obtain ⟨g, hg⟩ := hex
      have hone := h.inv.files.opened g _ w hg
      exact ⟨.inr hone, fun _ => ⟨g, h.inv.files.ref_pos hg, hg⟩, fun _ => hone⟩
    · have hzero := h.inv.files.shut _ hlive w fun g hg => hex ⟨g, hg⟩
      refine ⟨.inl hzero, fun hone => ?_, fun ⟨g, _, hg⟩ => absurd ⟨g, hg⟩ hex⟩
      rw [hzero] at hone
      cases hone
  · exact h.returns hc
  · have hcalled := (call_runs h hc False.elim).of_ok hrun
    refine ⟨fun hfail => ?_, fun a ha => ⟨fun hfree hlive => ?_, hcalled.freed a ha⟩⟩
    · have hu := hcalled.undone hfail
      exact ⟨fun p => by rw [hu.procs], hu.ref⟩
    · exact hpipe hcalled.settled a hlive hfree

/-- The first process makes a pipe. -/
def pipeCall : Call := .sysPipe initProc 0

/-- It has made a pipe. -/
def pipeState : State := (pipeCall.run tinyImage grownState).state

/-- The first file is the read end of the pipe, and the pipe is open for writing. -/
theorem pipeState_made :
    (pipeCall.run tinyImage grownState).value = some (some 0) ∧
      (pipeState.files ⟨0, by decide⟩).type = .pipe ∧
      (pipeState.files ⟨0, by decide⟩).ref = 1 ∧
      Bytes.num pipeState.vm.mem ((pipeState.files ⟨0, by decide⟩).pipe + endOff true) 4 = 1 := by
  decide +kernel

theorem pipeState_reach : Reach tinyImage Allowed bootState pipeState :=
  (grownState_reach growCall_allowed).next pipeCall (r := some 0)
    ⟨grownState_made.2.1, trivial⟩ pipeState_made.1

theorem pipeState_refs :
    (pipeState.files ⟨0, by decide⟩).type = .pipe ∧ refs pipeState ⟨0, by decide⟩ = 1 ∧
      ∃ g, 0 < (pipeState.files g).ref ∧
        IsEnd pipeState.files g (pipeState.files ⟨0, by decide⟩).pipe true := by
  obtain ⟨-, htype, hone, hopen⟩ := pipeState_made
  obtain ⟨-, href, -, hflag, -⟩ := file_refs_exact bootState_booted pipeState_reach
  refine ⟨htype, ?_, ?_⟩
  · have := href ⟨0, by decide⟩
    omega
  · exact (((hflag ⟨0, by decide⟩ htype).2 true).2).mp hopen

/-! ## Lazy memory -/

/-- When memory is never grown lazily, every address below the size of a process has a page, so
that user code does not fault there. -/
theorem eager_memory_present (hb : Booted img T s0)
    (hr : Reach img (fun s c => Allowed s c ∧ c.Eager) s0 s) :
    ∀ p, (s.procs p).state ≠ .unused → ∀ va < (s.procs p).sz, ∃ e,
      userTranslate s p va = some e := by
  intro p hp va hva
  have h : Settled img (initialPages T s0) T True s :=
    hr.settled hb fun s c hc => ⟨hc.1, fun _ => hc.2⟩
  have hlive := h.inv.live hp
  have hup := (pgroundup_eq (hlive.space.sz_le.trans trapframeVa_lt_maxva.le)).2.1
  exact Option.ne_none_iff_exists'.mp (hlive.dense trivial va (by omega))

theorem grownState_present : ∃ e, userTranslate grownState initProc 5 = some e :=
  eager_memory_present bootState_booted
    (grownState_reach ⟨growCall_allowed, .inl rfl⟩) initProc grownState_made.2.1.1 5
    grownState_made.2.2.1

/-- The first process grows its memory lazily, and forks. -/
def lazyCall : Call := .sysSbrk initProc 4096 2

/-- The child has a page of memory that has not been given to it yet. -/
def lazyState : State :=
  ((Call.kfork initProc).run tinyImage (lazyCall.run tinyImage initState).state).state

/-- Both calls succeed. -/
theorem lazyState_made :
    (lazyCall.run tinyImage initState).value = some (some 0) ∧
      Active (lazyCall.run tinyImage initState).state initProc ∧
      ((Call.kfork initProc).run tinyImage (lazyCall.run tinyImage initState).state).value =
        some (some 2) := by
  decide +kernel

theorem lazyState_reach : Reach tinyImage Allowed bootState lazyState :=
  ((initState_reach Allowed).next lazyCall (r := some 0)
    ⟨initState_made.2, show -2 ^ 31 ≤ (4096 : ℤ) ∧ (4096 : ℤ) < 2 ^ 31 by decide⟩
    lazyState_made.1).next (.kfork initProc) (r := some 2) ⟨lazyState_made.2.1, trivial⟩
    lazyState_made.2.2

/-- What the child has, and what a store to its memory does. -/
theorem lazyState_store :
    Active lazyState childProc ∧ 5 < (lazyState.procs childProc).sz ∧
    translate lazyState.vm.mem (lazyState.procs childProc).pagetable 5 = none ∧
    (lazyState.procs childProc).killed = false ∧
    (((Call.vmfault childProc 5).run tinyImage lazyState).value ≠ some (some 0)) ∧
    ((Call.usertrap childProc 15 0).run tinyImage lazyState).value = some none ∧
    (((Call.usertrap childProc 15 0).run tinyImage lazyState).state.procs childProc).killed =
      true ∧
    (((Call.usertrap childProc 15 0).run tinyImage lazyState).state.procs childProc).state =
      .zombie ∧
    translate ((Call.usertrap childProc 15 0).run tinyImage lazyState).state.vm.mem
      (((Call.usertrap childProc 15 0).run tinyImage lazyState).state.procs childProc).pagetable
      5 = none := by
  decide +kernel

/-- The child stores to its memory and is killed, although `vmfault` would have found a page. -/
theorem lazy_access_kills :
    Booted tinyImage ∅ bootState ∧ Reach tinyImage Allowed bootState lazyState ∧
    Active lazyState childProc ∧ 5 < (lazyState.procs childProc).sz ∧
    userTranslate lazyState childProc 5 = none ∧ (lazyState.procs childProc).killed = false ∧
    (((Call.vmfault childProc 5).run tinyImage lazyState).value ≠ some (some 0)) ∧
    ∃ s', (Call.usertrap childProc 15 0).run tinyImage lazyState = .ok none s' ∧
      (s'.procs childProc).killed = true ∧ (s'.procs childProc).state = .zombie ∧
      userTranslate s' childProc 5 = none := by
  obtain ⟨hactive, hsz, hnone, hkilled, hfault, hvalue, hafter⟩ := lazyState_store
  exact ⟨bootState_booted, lazyState_reach, hactive, hsz, hnone, hkilled, hfault, _,
    Outcome.eq_ok hvalue, hafter⟩

end RiscvKernel.Sys
