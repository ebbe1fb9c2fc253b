import RiscvKernel.Sys.Stack

/-!
# Running a program

`kexec` replaces the address space of its caller by a new image, or frees the image and leaves
the caller alone. `sys_exec` holds the arguments in pages of the kernel while it runs.
-/

namespace RiscvKernel.Sys

open Threads
open Threads.Seq (Runs)
open Bytes (num)

variable {img : KernelImage} {all T : Set ℕ} {eager : Prop} {s s' : State}
  {cnt : FileId → ℕ} {p q : ProcId} {E : String → Prop}

section Replace

variable {vm vm2 vm3 : Vm} {old root tf sz sz' : ℕ}

/-- The kernel has written to the trapframe only. -/
structure FrameWritten (tf : ℕ) (vm vm' : Vm) : Prop where
  /-- No page is taken or freed. -/
  freelist : vm'.freelist = vm.freelist
  /-- The other bytes are the same. -/
  mem : ∀ x, ¬ InPage tf x → vm'.mem x = vm.mem x

/-- A field of the trapframe is written. -/
theorem FrameWritten.store_bind {β : Type} {k : Unit → SysM β} {R : β → State → Prop} {off v : ℕ}
    {pr : Proc} (hw : FrameWritten tf vm s'.vm) (hslot : AtSlot s s' p pr) (hoff : off + 8 ≤ pgsize)
    (hk : ∀ s'', AtSlot s s'' p pr → FrameWritten tf vm s''.vm →
      s''.vm.mem = Bytes.put s'.vm.mem (tf + off) 8 v → Runs E (k ()) s'' R) :
    Runs E (lift (store (tf + off) v) >>= k) s' R := by
  refine .of_eq_bind rfl (hk _ hslot.vm ⟨hw.freelist, fun x hx => ?_⟩ rfl)
  refine (Bytes.blit_outside _ _ ?_).trans (hw.mem x hx)
  unfold InPage at hx
  omega

/-- What happens to other pages is not seen by a process. -/
theorem userView_frame {A B : Set ℕ} {va n : ℕ} (h : ProcSpace img vm root tf sz)
    (hm : Moves img vm vm2 A B) (hdisj : ∀ a ∈ footprint vm.mem root, a ∉ A)
    (hva : va < trapframeVa) : userView vm2.mem root n va = userView vm.mem root n va := by
  obtain ⟨-, htr, -, -, hsame⟩ := h.space.frame hm hdisj
  cases he : translate vm.mem root va with
  | none => rw [userView_none he, userView_none ((htr va).trans he)]
  | some e =>
    rw [userView_some he, userView_some ((htr va).trans he)]
    have hoff : va % pgsize < pgsize := Nat.mod_lt _ (by decide)
    exact congrArg some (hsame _ (.inr ⟨va, hva, e, he, rfl⟩) _ ⟨by omega, by omega⟩)

/-- The old image is freed when the new image is complete and the trapframe points to it. -/
theorem replaceImage (hold : ProcSpace img vm old tf sz)
    (howns : Owns img vm ({tf} ∪ footprint vm.mem old)) (hapart : tf ∉ footprint vm.mem old)
    (hm : Moves img vm vm2 ∅ (footprint vm2.mem root)) (hnew : ProcSpace img vm2 root tf sz')
    (hw : FrameWritten tf vm2 vm3) :
    ProcSpace img vm3 old tf sz ∧ ∀ vm4, Moves img vm3 vm4 (footprint vm3.mem old) ∅ →
      ProcSpace img vm4 root tf sz' ∧ tf ∉ footprint vm4.mem root ∧
      (∀ va, translate vm4.mem root va = translate vm2.mem root va) ∧
      (∀ va < trapframeVa, userView vm4.mem root sz' va = userView vm2.mem root sz' va) ∧
      SamePage vm3 vm4 tf ∧
      Moves img vm vm4 ({tf} ∪ footprint vm.mem old) ({tf} ∪ footprint vm4.mem root) := by
  have hempty : ∀ A : Set ℕ, ∀ a ∈ A, a ∉ (∅ : Set ℕ) := fun _ _ _ => id
  have hsep := hm.apart howns (hempty _)
  have hm2 := hm.union howns (hempty _)
  obtain ⟨hold2, -, hfoot2⟩ := hold.frame hm (hempty _)
  -- The trapframe belongs to neither image.
  have htf : Moves img vm2 vm3 {tf} {tf} :=
    Moves.change (hm2.owns.mono fun a ha => .inr (.inl ha)) rfl hw.freelist hw.mem
  have hnotOld : ∀ a ∈ footprint vm2.mem old, a ∉ ({tf} : Set ℕ) := by
    rintro a ha rfl
    rw [hfoot2] at ha
    exact hapart ha
  have hnotNew : ∀ a ∈ footprint vm2.mem root, a ∉ ({tf} : Set ℕ) := by
    rintro a ha rfl
    exact hsep _ (.inl rfl) ha
  obtain ⟨hold3, -, hfoot3⟩ := hold2.frame htf hnotOld
  obtain ⟨hnew3, htr3, hroot3⟩ := hnew.frame htf hnotNew
  refine ⟨hold3, fun vm4 hgone => ?_⟩
  have hsep3 : ∀ a ∈ footprint vm3.mem root, a ∉ footprint vm3.mem old := by
    intro a ha ha'
    rw [hroot3] at ha
    rw [hfoot3, hfoot2] at ha'
    exact hsep a (.inr ha') ha
  obtain ⟨hnew4, htr4, hroot4⟩ := hnew3.frame hgone hsep3
  have htf4 : tf ∉ footprint vm4.mem root := by
    rw [hroot4, hroot3]
    exact hsep tf (.inl rfl)
  have hview : ∀ va < trapframeVa, userView vm4.mem root sz' va = userView vm2.mem root sz' va :=
    fun va hva => (userView_frame hnew3 hgone hsep3 hva).trans (userView_frame hnew htf hnotNew hva)
  have hsame : SamePage vm3 vm4 tf := hgone.same htf.owns (by
    rintro a rfl ha
    rw [hfoot3, hfoot2] at ha
    exact hapart ha) rfl
  refine ⟨hnew4, htf4, fun va => (htr4 va).trans (htr3 va), hview, hsame, ?_⟩
  have hm3 : Moves img vm2 vm3 (footprint vm2.mem root ∪ ({tf} ∪ footprint vm.mem old))
      (footprint vm2.mem root ∪ ({tf} ∪ footprint vm.mem old)) :=
    Moves.change hm2.owns (.inr (.inl rfl)) hw.freelist hw.mem
  have hkeep : Owns img vm3 (footprint vm2.mem root ∪ {tf}) :=
    hm3.owns.mono (Set.union_subset_union_right _ Set.subset_union_left)
  have hm4 := hgone.union hkeep (by
    rintro a (ha | rfl) ha'
    · rw [← hroot3] at ha
      exact hsep3 a ha ha'
    · rw [hfoot3, hfoot2] at ha'
      exact hapart ha')
  refine ((hm2.trans hm3).trans (hm4.of_eq ?_ rfl)).of_eq (Set.empty_union _) ?_
  · rw [hfoot3, hfoot2, Set.union_comm, Set.union_assoc]
  · rw [hroot4, hroot3, Set.empty_union, Set.union_comm]

end Replace

/-- What `kexec` does: the caller gets a new image, or every page taken on the way is free
again and nothing else has changed. -/
inductive Executed (img : KernelImage) (p : ProcId) (s : State) (r : ℤ) (s' : State) : Prop
  | failed {vm : Vm} : r = -1 → s' = { s with vm := vm } → Moves img s.vm vm ∅ ∅ →
      Executed img p s r s'
  | done {pt sz : ℕ} : r ≠ -1 → s'.files = s.files → s'.initproc = s.initproc →
      s'.procs = Function.update s.procs p { s.procs p with pagetable := pt, sz := sz } →
      Executed img p s r s'

/-- The program can be loaded by `p`, and its size with the stack is `sz`. The arguments play no
part in this. -/
def Loads (img : KernelImage) (p : ProcId) (file : Option ExecFile) (s : State) (sz : ℕ) : Prop :=
  ∃ f root vm, file = some f ∧ (f.readi 0 elfhdrSize).length = elfhdrSize ∧
    field (f.readi 0 elfhdrSize) 0 4 = elfMagic ∧
    procPagetable img (s.procs p).trapframe s.vm = .ok root vm ∧ root ≠ 0 ∧
    LoadsTo img root f (f.readi 0 elfhdrSize) vm sz

/-- What `kexec` does with the arguments: it fails if the program cannot be loaded or they do not
fit, and otherwise they are on the stack. -/
structure Delivers (img : KernelImage) (p : ProcId) (file : Option ExecFile)
    (argv : List (List UInt8)) (s : State) (r : ℤ) (s' : State) : Prop where
  /-- There is no other failure. -/
  failed : r = -1 → ∀ sz, Loads img p file s sz → StackFull argv
  /-- The number of arguments, and the stack that `sp` and `a1` point to. -/
  done : r ≠ -1 → r = argv.length ∧ Loads img p file s (s'.procs p).sz ∧
    num s'.vm.mem ((s'.procs p).trapframe + 48) 8 =
      num s'.vm.mem ((s'.procs p).trapframe + 120) 8 ∧
    StackBuilt s'.vm.mem (s'.procs p).pagetable (s'.procs p).sz
      (num s'.vm.mem ((s'.procs p).trapframe + 120) 8) argv

/-- What is on the stack depends on the address space only. -/
theorem StackBuilt.congr {mem mem' : ℕ → UInt8} {root sz sp : ℕ} {argv : List (List UInt8)}
    (h : StackBuilt mem root sz sp argv) (hsz : sz ≤ trapframeVa)
    (htr : ∀ va, translate mem' root va = translate mem root va)
    (hview : ∀ va < trapframeVa, userView mem' root sz va = userView mem root sz va) :
    StackBuilt mem' root sz sp argv := by
  have hadd := h.sp_add
  have hneed : stackNeed argv = argBytes argv + round16 ((argv.length + 1) * 8) := rfl
  have hge := le_round16 ((argv.length + 1) * 8)
  refine ⟨h.fits, h.room, h.mod, hadd, ⟨?_, ?_⟩, ?_, ?_⟩
  · intro va h1 h2
    obtain ⟨e, ⟨hlt, he, hu⟩, hw⟩ := h.map.writable va h1 h2
    exact ⟨e, ⟨hlt, (htr va).trans he, hu⟩, hw⟩
  · intro va h1 h2
    obtain ⟨e, he, hu⟩ := h.map.guard va h1 h2
    exact ⟨e, (htr va).trans he, hu⟩
  · exact strings_congr h.strings (by omega) fun x _ h2 => hview x (by omega)
  · intro i hi j hj
    have hlen : (argAddrs sz argv ++ [0]).length = argv.length + 1 := by simp [length_argAddrs]
    rw [hview _ (by omega)]
    exact h.words i hi j hj

section Fetch

variable (h : Inv img all eager s T cnt)

include h

/-- A failed `kexec` is a step that leaves its process alone. -/
theorem Inv.ownStep {vm : Vm} (hm : Moves img s.vm vm ∅ ∅)
    (p : ProcId) : OwnStep p s { s with vm := vm } := by
  obtain ⟨-, hstep⟩ : Inv img all eager { s with vm := vm } T cnt ∧
      FileStep s { s with vm := vm } := h.step_idle hm rfl rfl rfl
  exact ⟨rfl, rfl, rfl, hstep.within⟩

/-- `kexec`, with arguments that fit in a page. -/
theorem kexec_delivers {argv : List (List UInt8)}
    (hp : (s.procs p).state ≠ .unused) (file : Option ExecFile)
    (hargs : ∀ arg ∈ argv, arg.length < pgsize) :
    Runs E (kexec img p file argv) s fun r s' =>
      Inv img all eager s' T cnt ∧ Executed img p s r s' ∧ Delivers img p file argv s r s' := by
  -- Until the image is complete nobody uses it.
  have hfail : ∀ vm', Moves img s.vm vm' ∅ ∅ → (∀ sz, Loads img p file s sz → StackFull argv) →
      Runs E (pure (-1)) { s with vm := vm' } fun r s' =>
        Inv img all eager s' T cnt ∧ Executed img p s r s' ∧ Delivers img p file argv s r s' := by
    intro vm' hm hno
    obtain ⟨hinv, -⟩ : Inv img all eager { s with vm := vm' } T cnt ∧
        FileStep s { s with vm := vm' } := h.step_idle hm rfl rfl rfl
    exact .pure ⟨hinv, Executed.failed rfl rfl hm, fun _ => hno, fun hne => absurd rfl hne⟩
  have hrefl := Moves.refl h.ownsNone
  match file with
  | none =>
    refine hfail s.vm hrefl ?_
    rintro sz ⟨f, root, vm, heq, -⟩
    cases heq
  | some file =>
    unfold kexec
    dsimp only
    generalize helf : file.readi 0 elfhdrSize = elf
    by_cases h1 : elf.length ≠ elfhdrSize
    · rw [if_pos h1]
      refine hfail s.vm hrefl ?_
      rintro sz ⟨f, root, vm, heq, hlen, -⟩
      cases heq
      exact absurd (helf ▸ hlen) h1
    rw [if_neg h1]
    by_cases h2 : field elf 0 4 ≠ elfMagic
    · rw [if_pos h2]
      refine hfail s.vm hrefl ?_
      rintro sz ⟨f, root, vm, heq, -, hmagic, -⟩
      cases heq
      exact absurd (helf ▸ hmagic) h2
    rw [if_neg h2]
    refine .gets_bind ?_
    have hlive := h.live hp
    refine lift_bind (procPagetable_runs h.ownsNone hlive.trapframe).eq_ok ?_
    rintro root vm1 ⟨hroot, hrun⟩
    have hloads : ∀ {sz}, Loads img p (some file) s sz → root ≠ 0 ∧
        LoadsTo img root file elf vm1 sz := by
      rintro sz ⟨f, root', vm, heq, -, -, hrun', hne, hload⟩
      cases heq
      rw [hrun] at hrun'
      cases hrun'
      exact ⟨hne, helf ▸ hload⟩
    rcases hroot with ⟨hroot, hm1⟩ | ⟨hroot, hproc1, hm1⟩
    · rw [if_pos hroot]
      exact hfail vm1 hm1 fun sz hsz => absurd hroot (hloads hsz).1
    rw [if_neg hroot]
    refine lift_bind (buildImage_runs hproc1 hargs) ?_
    rintro ⟨sz, sp⟩ vm2 ⟨hproc2, hm2, hnone, hsome⟩
    dsimp only at hproc2 hnone hsome ⊢
    have hm := hm1.trans hm2
    match sp with
    | none =>
      refine lift_bind (procFreepagetable_runs hproc2) fun _ vm3 hm3 => ?_
      exact hfail vm3 (hm.trans hm3) fun sz' hsz' => hnone rfl sz' (hloads hsz').2
    | some sp =>
      obtain ⟨hload, hdense, hbuilt⟩ := hsome sp rfl
      have howns : Owns img s.vm ((s.procs p).pages s.vm.mem) := h.shares.owns (.proc p)
      rw [Proc.pages_of_ne hp] at howns
      have hw : FrameWritten (s.procs p).trapframe vm2 vm2 := ⟨rfl, fun _ _ => rfl⟩
      refine FrameWritten.store_bind hw (AtSlot.refl s p).vm (by decide)
        fun s1 hslot1 hw1 ha₁ => ?_
      refine setProc_bind hslot1 fun s2 hslot2 hvm2 => ?_
      rw [← hvm2] at hw1 ha₁
      refine FrameWritten.store_bind hw1 hslot2 (by decide) fun s3 hslot3 hw3 ha3 => ?_
      refine FrameWritten.store_bind hw3 hslot3 (by decide) fun s4 hslot4 hw4 ha4 => ?_
      obtain ⟨hold, hswap⟩ := replaceImage hlive.space howns hlive.apart hm hproc2 hw4
      refine lift_bind (procFreepagetable_runs hold) fun _ vm5 hgone => ?_
      obtain ⟨hnew, hapart, htr, hview, hsame, hmoves⟩ := hswap vm5 hgone
      obtain ⟨hinv, -⟩ : Inv img all eager { s4 with vm := vm5 } T cnt ∧ _ := by
        refine h.step_proc ?_ (.inr ⟨?_, ?_⟩) hslot4.procs hslot4.files
        · rw [Proc.pages_of_ne hp, Proc.pages_of_ne (by exact hp)]
          exact hmoves
        · exact hp
        · refine ⟨hlive.trapframe, hnew, hapart, fun _ va hva => ?_⟩
          rw [htr va]
          exact hdense va hva
      have hself : s4.procs p = { s.procs p with pagetable := root, sz := sz } := hslot4.self
      have hkept : ∀ off ≤ 120, num vm5.mem ((s.procs p).trapframe + off) 8 =
          num s4.vm.mem ((s.procs p).trapframe + off) 8 := by
        intro off hoff
        apply Bytes.num_congr
        intro k hk
        exact hsame _ ⟨by omega, by rw [pgsize]; omega⟩
      have hlt : sp < 256 ^ 8 := by
        have hadd := hbuilt.sp_add
        have hle := hproc2.sz_le
        have htop := trapframeVa_lt
        omega
      -- Later stores to the trapframe are to other registers.
      have ha1 : num vm5.mem ((s.procs p).trapframe + 120) 8 = sp := by
        rw [hkept 120 le_rfl, ha4, Bytes.num_put_disjoint _ (by omega), ha3,
          Bytes.num_put_disjoint _ (by omega), ha₁, Bytes.num_put_same, Nat.mod_eq_of_lt hlt]
      have hsp : num vm5.mem ((s.procs p).trapframe + 48) 8 = sp := by
        rw [hkept 48 (by decide), ha4, Bytes.num_put_same, Nat.mod_eq_of_lt hlt]
      refine .pure ⟨hinv, Executed.done (by omega) hslot4.files hslot4.initproc hslot4.procs,
        fun hr => ?_, fun _ => ⟨rfl, ?_, ?_, ?_⟩⟩
      · omega
      · rw [hself]
        exact ⟨file, root, vm1, rfl, helf ▸ not_not.mp h1, helf ▸ not_not.mp h2, hrun, hroot,
          helf ▸ hload⟩
      · rw [hself]
        exact hsp.trans ha1.symm
      · rw [hself]
        change StackBuilt vm5.mem root sz (num vm5.mem ((s.procs p).trapframe + 120) 8) argv
        rw [ha1]
        exact hbuilt.congr hproc2.sz_le htr hview

/-- `kexec`, with arguments that fit in a page. -/
theorem kexec_runs {argv : List (List UInt8)}
    (hp : (s.procs p).state ≠ .unused) (file : Option ExecFile)
    (hargs : ∀ arg ∈ argv, arg.length < pgsize) :
    Runs E (kexec img p file argv) s fun r s' =>
      Inv img all eager s' T cnt ∧ Executed img p s r s' :=
  (kexec_delivers h hp file hargs).mono fun _ _ hs' => ⟨hs'.1, hs'.2.1⟩

/-- The kernel takes, writes or frees pages of its own. -/
theorem Inv.kernelMoves {T' : Set ℕ} {vm' : Vm} (p : ProcId)
    (hm : Moves img s.vm vm' T T') :
    Inv img all eager { s with vm := vm' } T' cnt ∧ OwnStep p s { s with vm := vm' } := by
  obtain ⟨hinv, hspace⟩ : Inv img all eager { s with vm := vm' } T' cnt ∧
      ∀ q, SameSpace s { s with vm := vm' } q :=
    h.step_kernel hm (fun q => Proc.SameMem.refl _) rfl
  exact ⟨hinv, rfl, rfl, rfl, Within.of_same hspace⟩

/-- The kernel takes a page that no process and no pipe uses. -/
theorem Inv.kalloc_runs (p : ProcId) :
    Runs E (lift kalloc) s fun r s' =>
      (r = 0 ∧ Inv img all eager s' T cnt ∧ OwnStep p s s') ∨
      (IsPage img r ∧ r ∉ T ∧ Inv img all eager s' ({r} ∪ T) cnt ∧ OwnStep p s s') := by
  have hT : Owns img s.vm T := h.shares.owns .kernel
  have hgrow : ∀ {vm' : Vm} {A : Set ℕ}, Moves img s.vm vm' ∅ A → Moves img s.vm vm' T (A ∪ T) :=
    fun hm => (hm.union hT fun _ _ => id).of_eq (Set.empty_union T) rfl
  refine lift_runs (RiscvKernel.kalloc_runs h.ownsNone) ?_
  rintro r vm' (⟨hr, hm, -⟩ | ⟨hpage, hfree, hm⟩)
  · exact .inl ⟨hr, h.kernelMoves p ((hgrow hm).of_eq rfl (Set.empty_union T))⟩
  · exact .inr ⟨hpage, fun hr => hT.inUse r hr hfree, h.kernelMoves p (hgrow hm)⟩

/-- `fetchaddr`. -/
theorem fetchaddr_runs (hp : (s.procs p).state ≠ .unused)
    (addr : ℕ) :
    Runs E (fetchaddr img p addr) s fun _ s' =>
      Inv img all eager s' T cnt ∧ OwnStep p s s' := by
  refine .gets_bind ?_
  split
  · exact .pure ⟨h, OwnStep.refl p s⟩
  · refine (copyinFor_runs h hp addr 8).bind ?_
    rintro ⟨r, bytes⟩ s1 ⟨-, hs1⟩
    dsimp only
    split
    · exact .pure hs1
    · exact .pure hs1

end Fetch

/-- What `sys_exec` has fetched: the kernel holds one page for each string. -/
structure Fetched (img : KernelImage) (all T : Set ℕ) (eager : Prop) (cnt : FileId → ℕ)
    (p : ProcId) (s : State) (r : List ℕ × Option (List (List UInt8))) (s' : State) : Prop where
  /-- The kernel owns the pages. -/
  inv : Inv img all eager s' ({a | a ∈ r.1} ∪ T) cnt
  /-- The caller may have got pages that it was missing. -/
  step : OwnStep p s s'
  /-- The pages are distinct. -/
  nodup : r.1.Nodup
  /-- They were free. -/
  page : ∀ a ∈ r.1, IsPage img a ∧ a ∉ T
  /-- A string fits in its page. -/
  args : ∀ argv, r.2 = some argv → ∀ arg ∈ argv, arg.length < pgsize

/-- Nothing is fetched. -/
theorem Fetched.nil {o : Option (List (List UInt8))} (h : Inv img all eager s' T cnt)
    (hstep : OwnStep p s s') (ho : ∀ argv, o = some argv → argv = []) :
    Fetched img all T eager cnt p s ([], o) s' := by
  refine ⟨?_, hstep, List.nodup_nil, fun a ha => absurd ha List.not_mem_nil, ?_⟩
  · have hnil : {a | a ∈ ([] : List ℕ)} ∪ T = T := by simp
    rwa [hnil]
  · intro argv hargv arg harg
    rw [ho argv hargv] at harg
    cases harg

/-- One more page and string. -/
theorem Fetched.cons {s1 s2 : State} {page : ℕ} {pages : List ℕ} {arg : List UInt8}
    {o : Option (List (List UInt8))} (hpage : IsPage img page) (hnew : page ∉ T)
    (hstep : OwnStep p s s1) (harg : arg.length < pgsize)
    (h : Fetched img all ({page} ∪ T) eager cnt p s1 (pages, o) s2) :
    Fetched img all T eager cnt p s (page :: pages, o.map (arg :: ·)) s2 := by
  refine ⟨?_, hstep.trans h.step, ?_, ?_, ?_⟩
  · have hset : {a | a ∈ page :: pages} ∪ T = {a | a ∈ pages} ∪ ({page} ∪ T) := by
      ext a
      simp only [List.mem_cons, Set.mem_union, Set.mem_ofPred_eq, Set.mem_singleton_iff]
      tauto
    rw [hset]
    exact h.inv
  · exact List.nodup_cons.mpr ⟨fun ha => (h.page page ha).2 (.inl rfl), h.nodup⟩
  · intro a ha
    rcases List.mem_cons.mp ha with rfl | ha
    · exact ⟨hpage, hnew⟩
    · exact ⟨(h.page a ha).1, fun haT => (h.page a ha).2 (.inr haT)⟩
  · intro argv hargv a ha
    obtain ⟨rest, hrest, rfl⟩ := Option.map_eq_some_iff.mp hargv
    rcases List.mem_cons.mp ha with rfl | ha
    · exact harg
    · exact h.args rest hrest a ha

/-- The loop of `sys_exec` that fetches the arguments. -/
theorem fetchArgs_runs {n uargv : ℕ} (h : Inv img all eager s T cnt)
    (hp : (s.procs p).state ≠ .unused) :
    Runs E (fetchArgs img p n uargv) s fun r s' =>
      Fetched img all T eager cnt p s r s' := by
  induction n generalizing s T uargv with
  | zero => exact .pure (Fetched.nil h (OwnStep.refl p s) fun _ heq => nomatch heq)
  | succ n ih =>
    unfold fetchArgs
    refine (fetchaddr_runs h hp uargv).bind ?_
    rintro r s1 ⟨h1, hstep1⟩
    match r with
    | none => exact .pure (Fetched.nil h1 hstep1 fun _ heq => nomatch heq)
    | some uarg =>
      dsimp only
      split
      · refine .pure (Fetched.nil h1 hstep1 fun _ heq => ?_)
        exact (Option.some.inj heq).symm
      have hp1 : (s1.procs p).state ≠ .unused := by rwa [hstep1.procs]
      refine (h1.kalloc_runs p).bind ?_
      rintro page s2 (⟨hpage, h2, hstep2⟩ | ⟨hpage, hnew, h2, hstep2⟩)
      · rw [if_pos hpage]
        exact .pure (Fetched.nil h2 (hstep1.trans hstep2) fun _ heq => nomatch heq)
      rw [if_neg hpage.pos]
      have hp2 : (s2.procs p).state ≠ .unused := by rwa [hstep2.procs]
      have hstep := hstep1.trans hstep2
      refine (copyinstrFor_runs h2 hp2 uarg pgsize).bind ?_
      rintro r s3 ⟨hs3, hlen⟩
      rw [hs3]
      match r with
      | none =>
        refine .pure ⟨?_, hstep, List.nodup_singleton page, ?_, fun _ heq => nomatch heq⟩
        · have hset : {a | a ∈ [page]} = {page} := by
            ext a
            simp
          rw [hset]
          exact h2
        · intro a ha
          rw [List.mem_singleton.mp ha]
          exact ⟨hpage, hnew⟩
      | some arg =>
        have harg := hlen arg rfl
        -- The string is copied into its page.
        have hcopy : Runs E (lift (memmoveFrom page (fun k => arg.getD k 0) (arg.length + 1)))
            s2 fun _ s' => Inv img all eager s' ({page} ∪ T) cnt ∧ OwnStep p s2 s' := by
          have hown : Owns img s2.vm ({page} ∪ T) := h2.shares.owns .kernel
          have hm := Moves.blit hown (.inl rfl) 0 (arg.length + 1) (by omega)
            (fun k => arg.getD k 0)
          rw [Nat.add_zero] at hm
          exact .of_eq rfl (h2.kernelMoves p hm)
        refine hcopy.bind fun _ s4 hs4 => ?_
        have hp4 : (s4.procs p).state ≠ .unused := by rwa [hs4.2.procs]
        refine (ih hs4.1 hp4).bind ?_
        rintro ⟨pages, o⟩ s5 h5
        exact .pure (Fetched.cons hpage hnew (hstep.trans hs4.2) harg h5)

/-- The pages of the arguments are freed. -/
theorem freeArgs_runs {vm : Vm} {pages : List ℕ} (ho : Owns img vm {a | a ∈ pages})
    (hnodup : pages.Nodup) (hpage : ∀ a ∈ pages, IsPage img a) :
    Runs E (freeArgs img pages) vm fun _ vm' => Moves img vm vm' {a | a ∈ pages} ∅ := by
  induction pages generalizing vm with
  | nil =>
    have hnil : {a | a ∈ ([] : List ℕ)} = ∅ := by simp
    rw [hnil] at ho ⊢
    exact .pure (Moves.refl ho)
  | cons page rest ih =>
    obtain ⟨hnew, hrest⟩ := List.nodup_cons.mp hnodup
    have hset : {a | a ∈ page :: rest} = {page} ∪ {a | a ∈ rest} := by
      ext a
      simp
    rw [hset] at ho ⊢
    have hone := ho.mono Set.subset_union_left
    have hothers := ho.mono Set.subset_union_right
    refine (kfree_runs hone (hpage page List.mem_cons_self)).bind fun _ vm1 hm1 => ?_
    have hm := hm1.union hothers fun a ha heq => hnew (heq ▸ ha)
    rw [Set.empty_union] at hm
    exact (ih hm.owns hrest fun a ha => hpage a (List.mem_cons_of_mem _ ha)).mono
      fun _ vm2 hm2 => hm.trans hm2

/-- `sys_exec` gives back the pages of the arguments. -/
theorem releaseArgs_runs {pages : List ℕ} (h : Inv img all eager s ({a | a ∈ pages} ∪ T) cnt)
    (hnodup : pages.Nodup) (hpage : ∀ a ∈ pages, IsPage img a ∧ a ∉ T) (p : ProcId) :
    Runs E (lift (freeArgs img pages)) s fun _ s' =>
      Inv img all eager s' T cnt ∧ OwnStep p s s' := by
  have hown : Owns img s.vm ({a | a ∈ pages} ∪ T) := h.shares.owns .kernel
  refine lift_runs (freeArgs_runs (hown.mono Set.subset_union_left) hnodup
    fun a ha => (hpage a ha).1) fun _ vm' hm => ?_
  refine h.kernelMoves p ((hm.union (hown.mono Set.subset_union_right) ?_).of_eq rfl
    (Set.empty_union T))
  exact fun a haT ha => (hpage a ha).2 haT

/-- `sys_exec`. -/
theorem sysExec_runs (h : Settled img all T eager s) (hp : Active s p) (path uargv : ℕ)
    (lookup : List UInt8 → Option ExecFile) :
    Runs E (sysExec img p path uargv lookup) s fun r s' => Post img all T eager p s r s' := by
  refine (copyinstrFor_runs h.inv hp.1 path maxpath).bind ?_
  rintro r s0 ⟨hs0, -⟩
  rw [hs0]
  match r with
  | none => exact .pure (Post.refl h (-1))
  | some path =>
    refine (fetchArgs_runs h.inv hp.1).bind ?_
    rintro ⟨pages, args⟩ s1 hf
    match args with
    | none =>
      refine (releaseArgs_runs hf.inv hf.nodup hf.page p).bind fun _ s2 h2 => ?_
      exact .pure (Post.of_own h h2.1 (hf.step.trans h2.2) (-1))
    | some argv =>
      have hp1 : (s1.procs p).state ≠ .unused := by
        rw [hf.step.procs]
        exact hp.1
      refine (kexec_runs hf.inv hp1 (lookup path) (hf.args argv rfl)).bind fun r s2 h2 => ?_
      refine (releaseArgs_runs h2.1 hf.nodup hf.page p).bind fun _ s3 h3 => ?_
      refine .pure ?_
      rcases h2.2 with ⟨-, rfl, hm⟩ | ⟨hr, hfiles, -, hprocs⟩
      · exact Post.of_own h h3.1 ((hf.step.trans (hf.inv.ownStep hm p)).trans h3.2) r
      · rw [← h3.2.procs, hf.step.procs] at hprocs
        exact Post.of_space h h3.1 hr (h3.2.files.trans (hfiles.trans hf.step.files)) hprocs

/-- `kexec`, called by the kernel itself with arguments that fit in a page. -/
theorem kexec_post {argv : List (List UInt8)} (h : Settled img all T eager s) (hp : Active s p)
    (file : Option ExecFile) (hargs : ∀ arg ∈ argv, arg.length < pgsize) :
    Runs E (kexec img p file argv) s fun r s' => Post img all T eager p s r s' := by
  refine (kexec_runs h.inv hp.1 file hargs).mono fun r s' hs' => ?_
  rcases hs'.2 with ⟨-, rfl, hm⟩ | ⟨hr, hfiles, -, hprocs⟩
  · exact Post.of_own h hs'.1 (h.inv.ownStep hm p) r
  · exact Post.of_space h hs'.1 hr hfiles hprocs

end RiscvKernel.Sys
