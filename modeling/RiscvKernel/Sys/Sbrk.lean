import RiscvKernel.Sys.Safety

/-!
# The size of a process

`sys_sbrk` adds a signed 32-bit number to an unsigned 64-bit size. As long as the sum is not
negative, the call changes the size by exactly this number, or fails and changes nothing, in
either mode and wherever memory runs out. When a process asks for less than nothing, the sum
wraps around to a huge size; `uvmdealloc` then has nothing to do, and the call reports success
although the size is what it was.
-/

namespace RiscvKernel.Sys

open Threads
open Threads.Seq (Runs)

variable {img : KernelImage} {s s' : State} {p : ProcId} {E : String → Prop} {n : ℤ}

/-- The address space of a process is well-formed. -/
def HasSpace (img : KernelImage) (s : State) (p : ProcId) : Prop :=
  ProcSpace img s.vm (s.procs p).pagetable (s.procs p).trapframe (s.procs p).sz

/-- The byte that a process sees at an address. -/
def userByte (s : State) (p : ProcId) (va : ℕ) : Option UInt8 :=
  userView s.vm.mem (s.procs p).pagetable (s.procs p).sz va

/-- The processes, and the memory of `p`, are as they were. -/
structure SameMemory (s s' : State) (p : ProcId) : Prop where
  /-- No size has changed. -/
  procs : s'.procs = s.procs
  /-- No mapping has changed. -/
  map : ∀ va < maxva, userTranslate s' p va = userTranslate s p va
  /-- No byte has changed. -/
  view : ∀ va < trapframeVa, userByte s' p va = userByte s p va

/-- The size of `p` has changed by `n`. -/
structure ResizedBy (s s' : State) (p : ProcId) (n : ℤ) : Prop where
  /-- The new size, as an integer. -/
  size : ((s'.procs p).sz : ℤ) = (s.procs p).sz + n
  /-- It leaves room for the trapframe. -/
  le : (s'.procs p).sz ≤ trapframeVa
  /-- The bytes below both sizes are kept. -/
  view : ∀ va < min (s.procs p).sz (s'.procs p).sz, userByte s' p va = userByte s p va
  /-- Above the new size only the trapframe and the trampoline are mapped. -/
  above : ∀ va < maxva, ∀ e, userTranslate s' p va = some e →
    va / pgsize = trapframeVa / pgsize ∨ va / pgsize = trampolineVa / pgsize ∨
      va < pgroundup (s'.procs p).sz

/-- No translation changes. -/
theorem SameMemory.of_reshapes (hprocs : s'.procs = s.procs)
    (hm : Reshapes img s.vm s'.vm (s.procs p).pagetable
      (translate s.vm.mem (s.procs p).pagetable) ∅ ∅) : SameMemory s s' p := by
  refine ⟨hprocs, ?_, ?_⟩
  · intro va hva
    unfold userTranslate
    rw [hprocs]
    exact hm.map va (hva.trans (by decide))
  · intro va hva
    unfold userByte
    rw [hprocs]
    exact hm.userView_eq hva rfl Iff.rfl

/-- A change of the map that leaves what lies below both sizes alone. -/
theorem ResizedBy.of_reshapes {f : ℕ → Option ℕ} {sz : ℕ} (h : HasSpace img s p)
    (hm : Reshapes img s.vm s'.vm (s.procs p).pagetable f ∅ ∅)
    (hslot : AtSlot s s' p { s.procs p with sz := sz }) (hn : (sz : ℤ) = (s.procs p).sz + n)
    (hsz : sz ≤ trapframeVa) (huser : ∀ va, pgroundup sz ≤ va → va < trapframeVa → f va = none)
    (hkernel : ∀ va < 2 ^ 39, trapframeVa ≤ va →
      f va = translate s.vm.mem (s.procs p).pagetable va)
    (hkeep : ∀ va < min (s.procs p).sz sz,
      f va = translate s.vm.mem (s.procs p).pagetable va) : ResizedBy s s' p n := by
  have hself := hslot.self
  have hspace : ProcSpace img s'.vm (s.procs p).pagetable (s.procs p).trapframe sz :=
    ProcSpace.of_reshapes h hm hsz huser hkernel
  have hup := (pgroundup_eq (h.sz_le.trans trapframeVa_lt_maxva.le)).2.1
  have hup' := (pgroundup_eq (hsz.trans trapframeVa_lt_maxva.le)).2.1
  refine ⟨?_, ?_, ?_, ?_⟩
  · rw [hself]
    exact hn
  · rw [hself]
    exact hsz
  · intro va hva
    rw [hself] at hva
    have hva' : va < min (s.procs p).sz sz := hva
    unfold userByte
    rw [hself]
    have hsz_le := h.sz_le
    apply hm.userView_eq (by omega) (hkeep va hva')
    change va < pgroundup sz ↔ va < pgroundup (s.procs p).sz
    constructor <;> intro _ <;> omega
  · intro va hva e he
    unfold userTranslate at he
    rw [hself] at he ⊢
    exact hspace.mapped hva he

/-- `growproc`, when the new size is not negative. -/
theorem growproc_resizes (h : HasSpace img s p) (hlt : n < 2 ^ 31) (hsum : 0 ≤ (s.procs p).sz + n) :
    Runs E (growproc img p n) s fun r s' =>
      (r = -1 ∧ SameMemory s s' p) ∨ (r = 0 ∧ ResizedBy s s' p n) := by
  have hle := h.sz_le
  have hup := h.up_le
  have htop : trapframeVa < 2 ^ 39 := trapframeVa_lt
  have hnew : (u64 ((s.procs p).sz + n) : ℤ) = (s.procs p).sz + n := u64_of_nonneg hsum (by omega)
  unfold growproc
  refine .gets_bind ?_
  generalize u64 ((s.procs p).sz + n) = newsz at hnew
  by_cases hpos : n > 0
  · rw [if_pos hpos]
    by_cases hbig : newsz > trapframeVa
    · rw [if_pos hbig]
      exact .pure (.inl ⟨rfl, rfl, fun _ _ => rfl, fun _ _ => rfl⟩)
    rw [if_neg hbig]
    have hmono := pgroundup_mono (show (s.procs p).sz ≤ newsz by omega) (by omega)
    have hup' := (pgroundup_eq (hle.trans trapframeVa_lt_maxva.le)).2.1
    refine lift_bind (uvmalloc_runs h.space hle (by decide) h.user (.inl (by omega))) ?_
    rintro r vm' (⟨hless, -⟩ | ⟨-, rfl, -, hfills⟩ | ⟨rfl, hm⟩)
    · omega
    · rw [if_neg (by omega)]
      refine setProc_bind (AtSlot.refl s p).vm fun s1 hslot hvm => .pure (.inr ⟨rfl, ?_⟩)
      have hvm : s1.vm = vm' := hvm
      subst hvm
      have htop' := pgroundup_le (show r ≤ trapframeVa by omega) trapframeVa_mod
        trapframeVa_lt_maxva.le
      apply ResizedBy.of_reshapes h hfills.reshapes hslot hnew (by omega)
      · intro va h1 h2
        rw [hfills.outside va (by omega) (by omega)]
        exact h.user va (by omega) h2
      · intro va h1 h2
        exact hfills.outside va h1 (by omega)
      · intro va hva
        exact hfills.outside va (by omega) (by omega)
    · rw [if_pos rfl]
      exact .pure (.inl ⟨rfl, SameMemory.of_reshapes rfl hm⟩)
  rw [if_neg hpos]
  by_cases hneg : n < 0
  · rw [if_pos hneg]
    refine lift_bind (uvmdealloc_runs h.space hle) ?_
    rintro r vm' ⟨rfl, hm⟩
    rw [if_pos (show newsz < (s.procs p).sz by omega)] at hm
    have hmin : min (s.procs p).sz newsz = newsz := by omega
    refine setProc_bind (AtSlot.refl s p).vm fun s1 hslot hvm => .pure (.inr ⟨rfl, ?_⟩)
    have hvm : s1.vm = vm' := hvm
    subst hvm
    rw [hmin] at hslot
    have hup' := (pgroundup_eq (show newsz ≤ maxva by have := trapframeVa_lt_maxva; omega)).2.1
    apply ResizedBy.of_reshapes h hm hslot hnew (by omega)
    · intro va h1 h2
      unfold cutRange
      split
      · rfl
      · exact h.user va (by omega) h2
    · intro va h1 h2
      rw [cutRange, if_neg (by omega)]
    · intro va hva
      rw [cutRange, if_neg (by omega)]
  · rw [if_neg hneg]
    have hzero : n = 0 := by omega
    subst hzero
    refine .pure (.inr ⟨rfl, by omega, hle, fun _ _ => rfl, ?_⟩)
    intro va hva e he
    exact h.mapped hva he

/-- `growproc` reports success whenever the size is to go down. -/
theorem growproc_shrinks (h : HasSpace img s p) (hneg : n < 0) :
    Runs E (growproc img p n) s fun r _ => r = 0 := by
  unfold growproc
  refine .gets_bind ?_
  rw [if_neg (by omega), if_pos hneg]
  refine lift_bind (uvmdealloc_runs h.space h.sz_le) ?_
  rintro r vm' -
  exact setProc_bind (AtSlot.refl s p).vm fun s1 _ _ => .pure rfl

/-- `sbrk`, when the new size is not negative. -/
theorem sysSbrk_resizes (h : HasSpace img s p) (hlt : n < 2 ^ 31) (t : ℤ)
    (hsum : 0 ≤ (s.procs p).sz + n) :
    Runs E (sysSbrk img p n t) s fun r s' =>
      (r = -1 ∧ SameMemory s s' p) ∨ (r = (s.procs p).sz ∧ ResizedBy s s' p n) := by
  have hle := h.sz_le
  have htop : trapframeVa < 2 ^ 39 := trapframeVa_lt
  unfold sysSbrk
  refine .gets_bind ?_
  by_cases hgrow : t = sbrkEager ∨ n < 0
  · rw [if_pos hgrow]
    refine (growproc_resizes h hlt hsum).bind ?_
    rintro r s1 (⟨rfl, hsame⟩ | ⟨rfl, hresized⟩)
    · rw [if_pos (by decide)]
      exact .pure (.inl ⟨rfl, hsame⟩)
    · rw [if_neg (by decide)]
      exact .pure (.inr ⟨rfl, hresized⟩)
  rw [if_neg hgrow]
  have hnew : (u64 ((s.procs p).sz + n) : ℤ) = (s.procs p).sz + n :=
    u64_of_nonneg hsum (by omega)
  split
  · exact .pure (.inl ⟨rfl, rfl, fun _ _ => rfl, fun _ _ => rfl⟩)
  split
  · exact .pure (.inl ⟨rfl, rfl, fun _ _ => rfl, fun _ _ => rfl⟩)
  next hwrap hbig =>
  refine setProc_bind (AtSlot.refl s p) fun s1 hslot hvm => .pure (.inr ⟨rfl, ?_⟩)
  have hmono := pgroundup_mono (show (s.procs p).sz ≤ u64 ((s.procs p).sz + n) by omega)
    (by omega)
  have hm : Reshapes img s.vm s1.vm (s.procs p).pagetable
      (translate s.vm.mem (s.procs p).pagetable) ∅ ∅ := by
    rw [hvm]
    exact Reshapes.refl h.space
  apply ResizedBy.of_reshapes h hm hslot hnew (by omega)
  · intro va h1 h2
    exact h.user va (by omega) h2
  · intro va _ _
    rfl
  · intro va _
    rfl

/-- `sbrk`, when the new size would be negative, returns the old size. -/
theorem sysSbrk_negative (h : HasSpace img s p) (t : ℤ) (hsum : (s.procs p).sz + n < 0) :
    Runs E (sysSbrk img p n t) s fun r _ => r = (s.procs p).sz := by
  unfold sysSbrk
  refine .gets_bind ?_
  rw [if_pos (Or.inr (by omega))]
  refine (growproc_shrinks h (by omega)).bind ?_
  rintro r s1 rfl
  rw [if_neg (by decide)]
  exact .pure rfl

/-- `sbrk` changes the size by exactly `n`, or fails and changes nothing, exactly when the new
size is not negative. -/
theorem sbrk_exact (h : HasSpace img s p) (hlt : n < 2 ^ 31) (t : ℤ) :
    (∃ r s', sysSbrk img p n t s = .ok r s' ∧
      ((r = -1 ∧ SameMemory s s' p) ∨ (r = (s.procs p).sz ∧ ResizedBy s s' p n))) ↔
      0 ≤ (s.procs p).sz + n := by
  constructor
  · rintro ⟨r, s', hrun, hpost⟩
    by_contra hsum
    have hr := (sysSbrk_negative h t (not_le.mp hsum) (E := fun _ => True)).after r s' hrun
    rcases hpost with ⟨rfl, -⟩ | ⟨-, hresized⟩
    · omega
    · have hsize := hresized.size
      omega
  · intro hsum
    rcases (sysSbrk_resizes h hlt t hsum (E := fun _ => False)).cases with
      ⟨r, s', hrun, hpost⟩ | ⟨_, _, _, hfalse⟩
    · exact ⟨r, s', hrun, hpost⟩
    · exact hfalse.elim

/-- The first process. -/
theorem initState_space : HasSpace tinyImage initState initProc := by
  have hsettled : Settled tinyImage (initialPages ∅ bootState) ∅ False initState :=
    (initState_reach Allowed).settled bootState_booted fun _ _ hc => ⟨hc, False.elim⟩
  exact (hsettled.inv.live initState_made.2.1).space

/-- The first process grows by a page. -/
theorem initState_sbrk :
    ∃ s', sysSbrk tinyImage initProc 4096 sbrkEager initState = .ok 0 s' ∧
      ResizedBy initState s' initProc 4096 := by
  have hvalue : (sysSbrk tinyImage initProc 4096 sbrkEager initState).value = some 0 := by
    decide +kernel
  obtain ⟨r, s', hrun, hpost⟩ := (sbrk_exact initState_space (n := 4096) (by decide)
    sbrkEager).mpr (by omega)
  rw [hrun] at hvalue
  have hr : r = 0 := Option.some.inj hvalue
  subst hr
  rcases hpost with ⟨hbad, -⟩ | ⟨-, hresized⟩
  · exact absurd hbad (by decide)
  · exact ⟨s', hrun, hresized⟩

/-- The first process, which has no memory yet, asks for one byte less: it is told that the call
has succeeded, and its size is not the old one less one. -/
theorem sbrk_below_zero :
    HasSpace tinyImage initState initProc ∧
    (sysSbrk tinyImage initProc (-1) sbrkEager initState).value = some 0 ∧
    ((sysSbrk tinyImage initProc (-1) sbrkEager initState).state.procs initProc).sz = 0 ∧
    ¬ ResizedBy initState (sysSbrk tinyImage initProc (-1) sbrkEager initState).state initProc
      (-1) := by
  have hrun : (sysSbrk tinyImage initProc (-1) sbrkEager initState).value = some 0 ∧
      ((sysSbrk tinyImage initProc (-1) sbrkEager initState).state.procs initProc).sz = 0 ∧
      (initState.procs initProc).sz = 0 := by
    decide +kernel
  refine ⟨initState_space, hrun.1, hrun.2.1, fun hresized => ?_⟩
  have hsize := hresized.size
  rw [hrun.2.1, hrun.2.2] at hsize
  cases hsize

end RiscvKernel.Sys
