import RiscvKernel.Vm.Release

/-!
# User memory

The user memory of a process is a map from addresses to bytes in which a page that is still
to be filled in reads as zeros. `copyin` reads this map and leaves it alone; `copyout`
overwrites a range of it, or a first part of the range when it fails. Both fill in pages on
the way, which the map does not show.
-/

namespace RiscvKernel

open Threads
open Threads.Seq (Runs bind_apply ok_bind)

variable {img : KernelImage} {s s' s'' : Vm} {root tf sz va n : ℕ} {src : ℕ → UInt8}
  {E : String → Prop}

/-- The user memory of a process as it reads it. -/
def userView (mem : ℕ → UInt8) (root sz va : ℕ) : Option UInt8 :=
  match translate mem root va with
  | some e => some (mem (pte2pa e + va % pgsize))
  | none => if va < pgroundup sz then some 0 else none

/-- A byte in memory. -/
theorem userView_some {mem : ℕ → UInt8} {e : ℕ} (h : translate mem root va = some e) :
    userView mem root sz va = some (mem (pte2pa e + va % pgsize)) := by rw [userView, h]

/-- A byte that is still to be filled in. -/
theorem userView_none {mem : ℕ → UInt8} (h : translate mem root va = none) :
    userView mem root sz va = if va < pgroundup sz then some 0 else none := by rw [userView, h]

/-- A range that does not leave the page it starts in. -/
theorem div_eq_of_range {x : ℕ} (hn : va % pgsize + n ≤ pgsize) (hx : va ≤ x ∧ x < va + n) :
    x / pgsize = va / pgsize := by
  simp only [pgsize] at *
  omega

/-- Addresses of one page differ by their offsets. -/
theorem add_mod_comm {x : ℕ} (hx : x / pgsize = va / pgsize) :
    x + va % pgsize = va + x % pgsize := by
  simp only [pgsize] at *
  omega

theorem lt_trapframeVa_of_div {x : ℕ} (hx : x / pgsize = va / pgsize) (hva : va < trapframeVa) :
    x < trapframeVa := by
  have := trapframeVa_mod
  simp only [pgsize] at *
  omega

/-- User memory with `n` bytes from `va` on overwritten. -/
def patch (view : ℕ → Option UInt8) (va n : ℕ) (src : ℕ → UInt8) (x : ℕ) : Option UInt8 :=
  if va ≤ x ∧ x < va + n then some (src (x - va)) else view x

theorem patch_zero (view : ℕ → Option UInt8) (x : ℕ) : patch view va 0 src x = view x :=
  if_neg (by omega)

/-- Overwriting a range in two parts. -/
theorem patch_add (view : ℕ → Option UInt8) (m x : ℕ) :
    patch (patch view va n src) (va + n) m (fun k => src (n + k)) x =
      patch view va (n + m) src x := by
  unfold patch
  by_cases h1 : va + n ≤ x ∧ x < va + n + m
  · have hoff : n + (x - (va + n)) = x - va := by omega
    rw [if_pos h1, if_pos (by omega)]
    exact congrArg (fun k => some (src k)) hoff
  · rw [if_neg h1]
    by_cases h2 : va ≤ x ∧ x < va + n
    · rw [if_pos h2, if_pos (by omega)]
    · rw [if_neg h2, if_neg (by omega)]

/-- A user address that is mapped for user code. -/
def UserMapped (mem : ℕ → UInt8) (root va : ℕ) (e : ℕ) : Prop :=
  va < trapframeVa ∧ translate mem root va = some e ∧ hasFlag e pteU = true

/-- The process has its user memory overwritten from `va` on by `n` bytes. -/
structure UserWrites (img : KernelImage) (s s' : Vm) (root tf sz va n : ℕ) (src : ℕ → UInt8) :
    Prop where
  /-- It is still the address space of a process. -/
  proc : ProcSpace img s' root tf sz
  /-- Pages are conserved. -/
  moves : Moves img s s' (footprint s.mem root) (footprint s'.mem root)
  /-- What was mapped stays mapped. -/
  keeps : ∀ x < trapframeVa, ∀ e, translate s.mem root x = some e →
    translate s'.mem root x = some e
  /-- User memory is overwritten. -/
  view : ∀ x < trapframeVa, userView s'.mem root sz x =
    patch (userView s.mem root sz) va n src x
  /-- What is overwritten is mapped for user code, and writable. -/
  written : ∀ x, va ≤ x → x < va + n → ∃ e, UserMapped s'.mem root x e ∧ hasFlag e pteW = true

theorem UserWrites.refl (h : ProcSpace img s root tf sz) :
    UserWrites img s s root tf sz va 0 src :=
  ⟨h, Moves.refl h.space.owns, fun _ _ _ he => he, fun _ _ => (patch_zero _ _).symm,
    fun _ _ _ => by omega⟩

/-- User pages stay. -/
theorem UserMapped.keeps {e : ℕ} (he : UserMapped s.mem root va e)
    (h : ∀ x < trapframeVa, ∀ e, translate s.mem root x = some e →
      translate s'.mem root x = some e) : UserMapped s'.mem root va e :=
  ⟨he.1, h va he.1 e he.2.1, he.2.2⟩

/-- Overwriting a range in two parts. -/
theorem UserWrites.trans {m : ℕ} (h : UserWrites img s s' root tf sz va n src)
    (h' : UserWrites img s' s'' root tf sz (va + n) m (fun k => src (n + k))) :
    UserWrites img s s'' root tf sz va (n + m) src := by
  refine ⟨h'.proc, h.moves.trans h'.moves, fun x hx e he => h'.keeps x hx e (h.keeps x hx e he),
    fun x hx => ?_, fun x h1 h2 => ?_⟩
  · rw [h'.view x hx, ← patch_add]
    unfold patch
    split
    · rfl
    · exact h.view x hx
  · by_cases hn : x < va + n
    · obtain ⟨e, he, hw⟩ := h.written x h1 hn
      exact ⟨e, he.keeps h'.keeps, hw⟩
    · exact h'.written x (by omega) (by omega)

/-- The address of an empty overwriting does not matter. -/
theorem UserWrites.rebase {va' : ℕ} {src' : ℕ → UInt8}
    (h : UserWrites img s s' root tf sz va 0 src) :
    UserWrites img s s' root tf sz va' 0 src' :=
  ⟨h.proc, h.moves, h.keeps, fun x hx => by rw [h.view x hx, patch_zero, patch_zero],
    fun x _ _ => by omega⟩

/-- An overwriting after steps that patch nothing. -/
theorem UserWrites.after (h' : UserWrites img s' s'' root tf sz va n src)
    (h : UserWrites img s s' root tf sz va 0 src) : UserWrites img s s'' root tf sz va n src := by
  have hsrc : UserWrites img s' s'' root tf sz (va + 0) n (fun k => src (0 + k)) := by
    simpa using h'
  have := h.trans hsrc
  rwa [Nat.zero_add] at this

/-- A process has used its own address space: pages may have been filled in, none is gone. -/
structure Touches (img : KernelImage) (s s' : Vm) (root tf sz : ℕ) : Prop where
  /-- It is still the address space of a process. -/
  proc : ProcSpace img s' root tf sz
  /-- Pages are conserved. -/
  moves : Moves img s s' (footprint s.mem root) (footprint s'.mem root)
  /-- What was mapped stays mapped. -/
  keeps : ∀ x < trapframeVa, ∀ e, translate s.mem root x = some e →
    translate s'.mem root x = some e

theorem UserWrites.touches (h : UserWrites img s s' root tf sz va n src) :
    Touches img s s' root tf sz := ⟨h.proc, h.moves, h.keeps⟩

theorem Touches.trans (h : Touches img s s' root tf sz) (h' : Touches img s' s'' root tf sz) :
    Touches img s s'' root tf sz :=
  ⟨h'.proc, h.moves.trans h'.moves, fun x hx e he => h'.keeps x hx e (h.keeps x hx e he)⟩

/-! ## Filling in pages -/

/-- The address space of a process after a change of its map. -/
theorem ProcSpace.of_reshapes {f : ℕ → Option ℕ} {sz' : ℕ} (h : ProcSpace img s root tf sz)
    (hr : Reshapes img s s' root f ∅ ∅) (hsz : sz' ≤ trapframeVa)
    (huser : ∀ x, pgroundup sz' ≤ x → x < trapframeVa → f x = none)
    (hkernel : ∀ x < 2 ^ 39, trapframeVa ≤ x → f x = translate s.mem root x) :
    ProcSpace img s' root tf sz' := by
  refine ⟨hr.space, hsz, fun x h1 h2 => ?_, fun x h1 h2 => ?_⟩
  · rw [hr.map x (h2.trans trapframeVa_lt), huser x h1 h2]
  · rw [hr.map x h1, hkernel x h1 h2, h.kernel x h1 h2]

/-- The address space of a process does not change when others move pages. -/
theorem ProcSpace.frame {A B : Set ℕ} (h : ProcSpace img s root tf sz) (hm : Moves img s s' A B)
    (hdisj : ∀ a ∈ footprint s.mem root, a ∉ A) :
    ProcSpace img s' root tf sz ∧ (∀ va, translate s'.mem root va = translate s.mem root va) ∧
      footprint s'.mem root = footprint s.mem root := by
  obtain ⟨hspace, htr, -, hfoot, -⟩ := h.space.frame hm hdisj
  exact ⟨⟨hspace, h.sz_le, fun va h1 h2 => (htr va).trans (h.user va h1 h2),
    fun va h1 h2 => (htr va).trans (h.kernel va h1 h2)⟩, htr, hfoot⟩

/-- User memory ends below the trapframe. -/
theorem ProcSpace.up_le (h : ProcSpace img s root tf sz) : pgroundup sz ≤ trapframeVa :=
  pgroundup_le h.sz_le trapframeVa_mod trapframeVa_lt_maxva.le

/-- Below the rounded size lie exactly the pages that start below the size. -/
theorem ProcSpace.lt_up (h : ProcSpace img s root tf sz) {x : ℕ} (hva : va < sz)
    (hx : x / pgsize = va / pgsize) : x < pgroundup sz := by
  have hup := pgroundup_eq (h.sz_le.trans trapframeVa_lt_maxva.le)
  simp only [pgsize] at *
  omega

/-- A page that stays mapped, or stays unmapped, is seen by the process as before. -/
theorem Reshapes.userView_eq {f : ℕ → Option ℕ} {A B : Set ℕ} {sz' : ℕ}
    (h : Reshapes img s s' root f A B) (hva : va < trapframeVa)
    (hf : f va = translate s.mem root va) (hsz : va < pgroundup sz' ↔ va < pgroundup sz) :
    userView s'.mem root sz' va = userView s.mem root sz va := by
  have hmap : translate s'.mem root va = translate s.mem root va :=
    (h.map va (hva.trans trapframeVa_lt)).trans hf
  cases he : translate s.mem root va with
  | none => rw [userView_none he, userView_none (hmap.trans he), if_congr hsz rfl rfl]
  | some e =>
    rw [userView_some he, userView_some (hmap.trans he)]
    have hoff : va % pgsize < pgsize := Nat.mod_lt _ (by decide)
    have hsame := h.data va hva e he (hf.trans he)
    exact congrArg some (hsame _ ⟨by omega, by omega⟩)

/-- Filling in a page with zeros is not seen by the process. -/
theorem UserWrites.of_fill {r perm : ℕ} (h : ProcSpace img s root tf sz) (hva : va < sz)
    (hnone : translate s.mem root va = none) (hr : IsPage img r) (hperm : perm < 2 ^ 10)
    (hm : Reshapes img s s' root
      (replaceEntry (translate s.mem root) va (some (pteFor r perm))) ∅ ∅)
    (hzero : ∀ k < pgsize, s'.mem (r + k) = 0) : UserWrites img s s' root tf sz va 0 src := by
  have hlt := trapframeVa_lt
  have hup := h.up_le
  have hpage : ∀ x, x / pgsize = va / pgsize → translate s.mem root x = none :=
    fun x hx => (translate_congr_va hx).trans hnone
  have hout : ∀ x, ¬ x / pgsize = va / pgsize → x < 2 ^ 39 →
      translate s'.mem root x = translate s.mem root x := by
    intro x hx hx39
    rw [hm.map x hx39, replaceEntry, if_neg hx]
  have hkeeps : ∀ x < trapframeVa, ∀ e, translate s.mem root x = some e →
      translate s'.mem root x = some e := by
    intro x hx e he
    rw [hout x _ (hx.trans hlt), he]
    intro hsame
    rw [hpage x hsame] at he
    cases he
  refine ⟨h.of_reshapes hm h.sz_le ?_ ?_, hm.footprint_moves, hkeeps, ?_, fun x _ _ => by omega⟩
  · intro x h1 h2
    rw [replaceEntry, if_neg, h.user x h1 h2]
    exact fun hx => absurd (h.lt_up hva hx) (by omega)
  · intro x _ h2
    rw [replaceEntry, if_neg]
    exact fun hx => absurd (h.lt_up hva hx) (by omega)
  · intro x hx
    rw [patch_zero]
    by_cases hsame : x / pgsize = va / pgsize
    · have he : translate s'.mem root x = some (pteFor r perm) := by
        rw [hm.map x (hx.trans hlt), replaceEntry, if_pos hsame]
      rw [userView_some he, userView_none (hpage x hsame), if_pos (h.lt_up hva hsame),
        (pteFor_spec hr.lt hr.mod hperm).1, hzero _ (Nat.mod_lt _ (by decide))]
    · exact hm.userView_eq hx (by rw [replaceEntry, if_neg hsame]) Iff.rfl

/-- Steps that leave the map alone are not seen by the process. -/
theorem UserWrites.of_same (h : ProcSpace img s root tf sz)
    (hm : Reshapes img s s' root (translate s.mem root) ∅ ∅) :
    UserWrites img s s' root tf sz va 0 src := by
  refine ⟨h.of_reshapes hm h.sz_le h.user fun _ _ _ => rfl, hm.footprint_moves, fun x _ e he => ?_,
    fun x hx => ?_, fun x _ _ => by omega⟩
  · rw [hm.translate_eq, he]
  · rw [patch_zero]
    exact hm.userView_eq hx rfl Iff.rfl

theorem Touches.of_same (h : ProcSpace img s root tf sz)
    (hm : Reshapes img s s' root (translate s.mem root) ∅ ∅) : Touches img s s' root tf sz :=
  have hw : UserWrites img s s' root tf sz 0 0 fun _ => 0 := UserWrites.of_same h hm
  hw.touches

/-- A page is filled in. -/
theorem Touches.of_fill {r perm : ℕ} (h : ProcSpace img s root tf sz) (hva : va < sz)
    (hnone : translate s.mem root va = none) (hr : IsPage img r) (hperm : perm < 2 ^ 10)
    (hm : Reshapes img s s' root
      (replaceEntry (translate s.mem root) va (some (pteFor r perm))) ∅ ∅)
    (hzero : ∀ k < pgsize, s'.mem (r + k) = 0) : Touches img s s' root tf sz :=
  have hw : UserWrites img s s' root tf sz va 0 fun _ => 0 :=
    UserWrites.of_fill h hva hnone hr hperm hm hzero
  hw.touches

/-- What a process maps lies below its rounded size, or is the trapframe or the trampoline. -/
theorem ProcSpace.mapped (h : ProcSpace img s root tf sz) {e : ℕ} (hva : va < maxva)
    (he : translate s.mem root va = some e) :
    va / pgsize = trapframeVa / pgsize ∨ va / pgsize = trampolineVa / pgsize ∨
      va < pgroundup sz := by
  by_contra hnone
  push Not at hnone
  obtain ⟨htf, htr, hup⟩ := hnone
  by_cases hlow : va < trapframeVa
  · rw [h.user va hup hlow] at he
    cases he
  · rw [h.kernel va (hva.trans (by decide)) (by omega), kernelMap, if_neg htr, if_neg htf] at he
    cases he

/-- The entries of the trapframe and the trampoline are not for user code. -/
theorem ProcSpace.lt_of_user (h : ProcSpace img s root tf sz) {e : ℕ} (hva : va < 2 ^ 39)
    (he : translate s.mem root va = some e) (hu : hasFlag e pteU = true) : va < trapframeVa := by
  by_contra hge
  rw [h.kernel va hva (by omega), kernelMap] at he
  split at he
  · rw [← Option.some.inj he, hasFlag_pteFor_or _ (by decide) (by decide)] at hu
    exact absurd hu (by decide)
  · split at he
    · rw [← Option.some.inj he, hasFlag_pteFor_or _ (by decide) (by decide)] at hu
      exact absurd hu (by decide)
    · cases he

/-- `userPage` finds the page of a user address, filling it in if need be. -/
theorem userPage_runs {p : UserSpace} (h : ProcSpace img s root tf sz)
    (hp : p = ⟨sz, root⟩ ∨ ∃ e, UserMapped s.mem root va e) :
    Runs E (userPage img p root va) s fun pa s' =>
      (∀ va' src, UserWrites img s s' root tf sz va' 0 src) ∧
      ((pa = 0 ∧ ∀ e, ¬ UserMapped s.mem root va e) ∨
        ∃ e, UserMapped s'.mem root va e ∧ pte2pa e = pa ∧ IsPage img pa) := by
  have hmax39 : maxva < 2 ^ 39 := by decide
  refine .of_eq_bind (walkaddr_eq h.space.table va) ?_
  by_cases hfault : (if va ≥ maxva then 0 else userPa (translate s.mem root va)) = 0
  · rw [if_pos hfault]
    -- A page that is mapped does not fault, so the process is the one whose memory it is.
    have hunmapped : ∀ e, ¬ UserMapped s.mem root va e := by
      intro e he
      have hlt := he.1
      have := trapframeVa_lt_maxva
      rw [if_neg (by omega), he.2.1, userPa, if_pos he.2.2] at hfault
      exact (h.space.user.page va he.1 e he.2.1).pos hfault
    have hp : p = ⟨sz, root⟩ := hp.resolve_right (not_exists.mpr hunmapped)
    subst hp
    refine (vmfault_runs h.space h.sz_le).mono ?_
    rintro r s1 (⟨rfl, hm⟩ | ⟨hva, hnone, hr, hm, hzero⟩)
    · exact ⟨fun _ _ => UserWrites.of_same h hm, .inl ⟨rfl, hunmapped⟩⟩
    · refine ⟨fun _ src => (@UserWrites.of_fill _ _ _ _ _ _ _ src _ _ h hva hnone hr (by decide) hm
        hzero).rebase, .inr ⟨pteFor r (pteW ||| pteU ||| pteR), ⟨?_, ?_, ?_⟩, ?_⟩⟩
      · exact hva.trans_le h.sz_le
      · rw [hm.map va ((hva.trans_le h.sz_le).trans trapframeVa_lt), replaceEntry, if_pos rfl]
      · rw [hasFlag_pteFor_or _ (by decide) (by decide)]
        decide
      · exact ⟨(pteFor_spec hr.lt hr.mod (by decide)).1, hr⟩
  · rw [if_neg hfault]
    by_cases hge : va ≥ maxva
    · exact absurd (if_pos hge) hfault
    · rw [if_neg hge] at hfault ⊢
      cases he : translate s.mem root va with
      | none => exact absurd (by rw [he, userPa]) hfault
      | some e =>
        rw [he, userPa] at hfault
        by_cases hu : hasFlag e pteU = true
        · rw [userPa, if_pos hu]
          have hlt := h.lt_of_user (by omega) he hu
          exact .pure ⟨fun _ _ => UserWrites.refl h, .inr ⟨e, ⟨hlt, he, hu⟩, rfl,
            h.space.user.page va hlt e he⟩⟩
        · exact absurd (if_neg hu) hfault

/-! ## Writing to a page -/

/-- Writing into a user page leaves the address space as it is. -/
theorem Space.change_user {a : ℕ} (hs : Space img s root) (ha : a ∈ pagesOf (translate s.mem root))
    (hfree : s'.freelist = s.freelist) (hmem : ∀ x, ¬ InPage a x → s'.mem x = s.mem x) :
    Space img s' root ∧ (∀ va, translate s'.mem root va = translate s.mem root va) ∧
      footprint s'.mem root = footprint s.mem root := by
  have hm : Moves img s s' {a} {a} :=
    Moves.change (hs.ownsPages.mono (by rintro b rfl; exact ha)) rfl hfree hmem
  have hdisj : ∀ b ∈ tables s.mem root, b ∉ ({a} : Set ℕ) := by
    rintro b hb rfl
    exact hs.notTable b ha hb
  obtain ⟨ht, htab, htr⟩ := Remaps.of_moves hs.table hs.ownsTables hm hdisj
  have hpages : pagesOf (translate s'.mem root) = pagesOf (translate s.mem root) :=
    pagesOf_congr fun va _ => htr va
  have hfoot : footprint s'.mem root = footprint s.mem root := by
    rw [footprint, footprint, htab, hpages]
  refine ⟨⟨ht, ?_, ?_, hs.user.congr fun va _ => (htr va).symm, ?_⟩, htr, hfoot⟩
  · rw [hfoot]
    exact (Moves.change hs.owns (.inr ha) hfree hmem).owns
  · rw [htab]
    exact hs.tablePage
  · rw [hpages, htab]
    exact hs.notTable

/-- `memmove` into a page that is mapped for user code. -/
theorem UserWrites.of_move {e : ℕ} (h : ProcSpace img s root tf sz)
    (he : UserMapped s.mem root va e)
    (hw : hasFlag e pteW = true) (hn : va % pgsize + n ≤ pgsize)
    (hs' : s' = s.setMem (Bytes.blit s.mem (pte2pa e + va % pgsize) n src)) :
    UserWrites img s s' root tf sz va n src := by
  have hmem : s'.mem = Bytes.blit s.mem (pte2pa e + va % pgsize) n src := by rw [hs', Vm.setMem]
  have hfree : s'.freelist = s.freelist := by rw [hs', Vm.setMem]
  clear hs'
  have hpages : pte2pa e ∈ pagesOf (translate s.mem root) := ⟨va, he.1, e, he.2.1, rfl⟩
  have hout : ∀ x, ¬ InPage (pte2pa e) x → s'.mem x = s.mem x := by
    intro x hx
    rw [hmem]
    refine Bytes.blit_outside _ _ ?_
    unfold InPage at hx
    omega
  obtain ⟨hspace, htr, hfoot⟩ := h.space.change_user hpages hfree hout
  have hproc : ProcSpace img s' root tf sz :=
    ⟨hspace, h.sz_le, fun x h1 h2 => (htr x).trans (h.user x h1 h2),
      fun x h1 h2 => (htr x).trans (h.kernel x h1 h2)⟩
  refine ⟨hproc, ?_, fun x _ e' he' => (htr x).trans he', fun x hx => ?_, fun x h1 h2 => ?_⟩
  · rw [hfoot]
    exact Moves.change h.space.owns (.inr hpages) hfree hout
  · -- Other pages are mapped elsewhere, and within the page only the range is written.
    cases he' : translate s.mem root x with
    | none =>
      have hx' : ¬ (va ≤ x ∧ x < va + n) := by
        intro hin
        rw [translate_congr_va (div_eq_of_range hn hin), he.2.1] at he'
        cases he'
      rw [patch, if_neg hx', userView_none he', userView_none ((htr x).trans he')]
    | some e' =>
      have hoff : x % pgsize < pgsize := Nat.mod_lt _ (by decide)
      rw [userView_some ((htr x).trans he'), patch, userView_some he']
      by_cases hsame : x / pgsize = va / pgsize
      · have hee : e' = e := by
          rw [translate_congr_va hsame, he.2.1] at he'
          exact (Option.some.inj he').symm
        have hcomm := add_mod_comm hsame
        rw [hee, hmem]
        by_cases hin : va ≤ x ∧ x < va + n
        · have hidx : pte2pa e + x % pgsize - (pte2pa e + va % pgsize) = x - va := by omega
          rw [if_pos hin, Bytes.blit_inside _ _ (by omega) (by omega), hidx]
        · rw [if_neg hin, Bytes.blit_outside _ _ (by omega)]
      · have hne : pte2pa e' ≠ pte2pa e := fun heq =>
          hsame (h.space.user.inj x hx va he.1 e' e he' he.2.1 heq)
        rw [if_neg (mt (div_eq_of_range hn) hsame), hout]
        intro hx'
        have hin : InPage (pte2pa e') (pte2pa e' + x % pgsize) := ⟨by omega, by omega⟩
        exact hne (hin.eq hx' (pte2pa_mod _) (pte2pa_mod _))
  · have hsame := div_eq_of_range hn ⟨h1, h2⟩
    refine ⟨e, ⟨lt_trapframeVa_of_div hsame he.1, ?_, he.2.2⟩, hw⟩
    rw [htr x, translate_congr_va hsame, he.2.1]

/-! ## `copyout` -/

/-- What one turn of the copy loops covers of a page. -/
theorem chunk_le (va len : ℕ) : va % pgsize + min (pgsize - (va - pgrounddown va)) len ≤ pgsize ∧
    va - pgrounddown va = va % pgsize := by
  unfold pgrounddown pgsize
  omega

theorem chunk_pos (va : ℕ) {len : ℕ} (hlen : len ≠ 0) :
    0 < min (pgsize - (va - pgrounddown va)) len := by
  unfold pgrounddown pgsize
  omega

/-- The loop of `copyout` goes on at the end of the chunk. -/
theorem chunk_next {len : ℕ} (hva : va < trapframeVa)
    (hmore : min (pgsize - (va - pgrounddown va)) len < len) :
    (pgrounddown va + pgsize) % 2 ^ 64 = va + min (pgsize - (va - pgrounddown va)) len := by
  have : trapframeVa + pgsize < 2 ^ 64 := by decide
  unfold pgrounddown pgsize at *
  omega

theorem UserMapped.congr {e x : ℕ} {mem : ℕ → UInt8} (h : UserMapped mem root va e)
    (hx : x / pgsize = va / pgsize) : UserMapped mem root x e :=
  ⟨lt_trapframeVa_of_div hx h.1, (translate_congr_va hx).trans h.2.1, h.2.2⟩

/-- Every byte of a range is mapped for user code, and writable. -/
def UserWritable (mem : ℕ → UInt8) (root va n : ℕ) : Prop :=
  ∀ x, va ≤ x → x < va + n → ∃ e, UserMapped mem root x e ∧ hasFlag e pteW = true

/-- The loop of `copyout` overwrites the range, or a first part of it if the range is not
writable. -/
theorem copyoutFrom_runs {p : UserSpace} {fuel len : ℕ} (h : ProcSpace img s root tf sz)
    (hp : p = ⟨sz, root⟩ ∨ ∀ x, va ≤ x → x < va + len → ∃ e, UserMapped s.mem root x e)
    (hfuel : len ≤ fuel) :
    Runs E (copyoutFrom img p root fuel va src len) s fun r s' =>
      (r = 0 ∧ UserWrites img s s' root tf sz va len src) ∨
      (r = -1 ∧ ∃ n ≤ len, UserWrites img s s' root tf sz va n src ∧
        ¬ UserWritable s.mem root va len) := by
  induction fuel generalizing s va src len with
  | zero =>
    have hlen : len = 0 := by omega
    rw [hlen]
    exact .pure (.inl ⟨rfl, UserWrites.refl h⟩)
  | succ fuel ih =>
    rw [copyoutFrom]
    by_cases hlen : len = 0
    · rw [if_pos hlen, hlen]
      exact .pure (.inl ⟨rfl, UserWrites.refl h⟩)
    · rw [if_neg hlen]
      have hdiv : va / pgsize = pgrounddown va / pgsize := (pgrounddown_div va).symm
      have hfail : ∀ {s'}, UserWrites img s s' root tf sz va 0 src →
          (∀ e, UserMapped s.mem root (pgrounddown va) e → hasFlag e pteW = false) →
          Runs E (pure (-1)) s' fun (r : ℤ) s' =>
            (r = 0 ∧ UserWrites img s s' root tf sz va len src) ∨
            (r = -1 ∧ ∃ n ≤ len, UserWrites img s s' root tf sz va n src ∧
              ¬ UserWritable s.mem root va len) := by
        intro s' hw hno
        refine .pure (.inr ⟨rfl, 0, Nat.zero_le _, hw, fun hwritable => ?_⟩)
        obtain ⟨e, he, hwr⟩ := hwritable va le_rfl (by omega)
        rw [hno e (he.congr hdiv.symm)] at hwr
        cases hwr
      by_cases hge : pgrounddown va ≥ maxva
      · rw [if_pos hge]
        refine hfail (UserWrites.refl h) fun e he => ?_
        have := trapframeVa_lt_maxva
        have := he.1
        omega
      · rw [if_neg hge]
        have hpage : p = ⟨sz, root⟩ ∨ ∃ e, UserMapped s.mem root (pgrounddown va) e := by
          refine hp.imp_right fun hmapped => ?_
          obtain ⟨e, he⟩ := hmapped va le_rfl (by omega)
          exact ⟨e, he.congr hdiv.symm⟩
        refine .bind (userPage_runs h hpage) ?_
        rintro pa s1 ⟨hw1, hpa⟩
        by_cases hzero : pa = 0
        · rw [if_pos hzero]
          refine hfail (hw1 va src) fun e he => ?_
          rcases hpa with ⟨-, hnone⟩ | ⟨_, -, rfl, hpage⟩
          · exact absurd he (hnone e)
          · exact absurd hzero hpage.pos
        · rw [if_neg hzero]
          obtain ⟨e, he, rfl, hpage⟩ := hpa.resolve_left fun hpa => hzero hpa.1
          have h₁ := (hw1 va src).proc
          -- The entry that `copyout` looks up again is the one of this page.
          refine .of_eq_bind (walk_false s1 (by omega)) ?_
          obtain ⟨pt, hpt, hslot, -⟩ :=
            (pteSlot_cases h₁.space.table (pgrounddown va)).resolve_left
              fun hnone => by cases hnone.2.symm.trans he.2.1
          rw [hslot]
          refine .gets_bind ?_
          have hload : Bytes.num s1.mem (pteAddr pt (px 0 (pgrounddown va))) 8 = e := by
            have htr := translate_of_slot hpt
            rw [he.2.1] at htr
            split at htr
            · exact (Option.some.inj htr).symm
            · cases htr
          rw [hload]
          by_cases hwr : hasFlag e pteW = false
          · rw [if_pos hwr]
            refine hfail (hw1 va src) fun e' he' => ?_
            have hsame := (he'.keeps (hw1 va src).keeps).2.1.symm.trans he.2.1
            rwa [Option.some.inj hsame]
          · rw [if_neg hwr]
            refine .modify_bind ?_
            have hchunk := chunk_le va len
            have hva := (he.congr hdiv).1
            have hnext := @chunk_next va len hva
            have hpos := chunk_pos va hlen
            have hmove : UserWrites img s1 _ root tf sz va
                (min (pgsize - (va - pgrounddown va)) len) src :=
              UserWrites.of_move h₁ (he.congr hdiv) (by simpa using hwr) hchunk.1 rfl
            rw [← hchunk.2] at hmove
            generalize s1.setMem (Bytes.blit s1.mem (pte2pa e + (va - pgrounddown va))
              (min (pgsize - (va - pgrounddown va)) len) src) = s2 at hmove ⊢
            have hw2 := hmove.after (hw1 va src)
            have hle : min (pgsize - (va - pgrounddown va)) len ≤ len := Nat.min_le_right _ _
            generalize min (pgsize - (va - pgrounddown va)) len = n at hnext hpos hle hw2 ⊢
            have hp2 : p = ⟨sz, root⟩ ∨ ∀ x, (pgrounddown va + pgsize) % 2 ^ 64 ≤ x →
                x < (pgrounddown va + pgsize) % 2 ^ 64 + (len - n) →
                ∃ e, UserMapped s2.mem root x e := by
              refine hp.imp_right fun hmapped x h1 h2 => ?_
              by_cases hmore : n < len
              · rw [hnext hmore] at h1 h2
                obtain ⟨e', he'⟩ := hmapped x (by omega) (by omega)
                exact ⟨e', he'.keeps hw2.keeps⟩
              · omega
            refine (ih hw2.proc hp2 (by omega)).mono ?_
            by_cases hmore : n < len
            · rw [hnext hmore]
              rintro r s3 (⟨rfl, hw3⟩ | ⟨rfl, m, hm, hw3, hno⟩)
              · have hw := hw2.trans hw3
                rw [Nat.add_sub_of_le hle] at hw
                exact .inl ⟨rfl, hw⟩
              · refine .inr ⟨rfl, n + m, by omega, hw2.trans hw3, fun hwritable => hno ?_⟩
                intro x h1 h2
                obtain ⟨e', he', hwr'⟩ := hwritable x (by omega) (by omega)
                exact ⟨e', he'.keeps hw2.keeps, hwr'⟩
            · have hall : n = len := by omega
              rw [hall, Nat.sub_self]
              rw [hall] at hw2
              rintro r s3 (⟨rfl, hw3⟩ | ⟨rfl, m, hm, hw3, hno⟩)
              · exact .inl ⟨rfl, hw2.trans hw3.rebase⟩
              · exact absurd (fun x h1 h2 => by omega) hno

/-! ## `copyin` -/

/-- The bytes that a list has read from user memory, all of them mapped for user code. -/
structure ReadsUser (mem : ℕ → UInt8) (root sz va : ℕ) (bytes : List UInt8) : Prop where
  /-- They are the bytes of user memory. -/
  bytes_eq : ∀ k < bytes.length, bytes[k]? = userView mem root sz (va + k)
  /-- They were mapped for user code. -/
  mapped : ∀ k < bytes.length, ∃ e, UserMapped mem root (va + k) e

theorem ReadsUser.nil {mem : ℕ → UInt8} : ReadsUser mem root sz va [] :=
  ⟨fun _ hk => absurd hk (Nat.not_lt_zero _), fun _ hk => absurd hk (Nat.not_lt_zero _)⟩

/-- One chunk after the other. -/
theorem ReadsUser.append {mem : ℕ → UInt8} {b1 b2 : List UInt8} (h1 : ReadsUser mem root sz va b1)
    (h2 : b2 ≠ [] → ReadsUser mem root sz (va + b1.length) b2) :
    ReadsUser mem root sz va (b1 ++ b2) := by
  have hsnd : ∀ k < (b1 ++ b2).length, ¬ k < b1.length → ∃ j < b2.length, k = b1.length + j ∧
      b2 ≠ [] := by
    intro k hk hlt
    rw [List.length_append] at hk
    refine ⟨k - b1.length, by omega, by omega, fun hnil => ?_⟩
    rw [hnil, List.length_nil] at hk
    omega
  refine ⟨fun k hk => ?_, fun k hk => ?_⟩
  · by_cases hlt : k < b1.length
    · rw [List.getElem?_append_left hlt]
      exact h1.bytes_eq k hlt
    · obtain ⟨j, hj, rfl, hne⟩ := hsnd k hk hlt
      rw [List.getElem?_append_right (Nat.le_add_right _ _), Nat.add_sub_cancel_left,
        (h2 hne).bytes_eq j hj, Nat.add_assoc]
  · by_cases hlt : k < b1.length
    · exact h1.mapped k hlt
    · obtain ⟨j, hj, rfl, hne⟩ := hsnd k hk hlt
      rw [← Nat.add_assoc]
      exact (h2 hne).mapped j hj

/-- What has been read stays true while pages are filled in. -/
theorem ReadsUser.keeps {va' : ℕ} {bytes : List UInt8} (h : ReadsUser s.mem root sz va bytes)
    (hw : UserWrites img s s' root tf sz va' 0 src) : ReadsUser s'.mem root sz va bytes := by
  refine ⟨fun k hk => ?_, fun k hk => ?_⟩
  · obtain ⟨e, he⟩ := h.mapped k hk
    rw [hw.view _ he.1, patch_zero, h.bytes_eq k hk]
  · obtain ⟨e, he⟩ := h.mapped k hk
    exact ⟨e, he.keeps hw.keeps⟩

/-- `memmove` from a page that is mapped for user code. -/
theorem ReadsUser.of_page {e : ℕ} (he : UserMapped s.mem root va e)
    (hn : va % pgsize + n ≤ pgsize) :
    ReadsUser s.mem root sz va
      ((List.range n).map fun k => s.mem (pte2pa e + va % pgsize + k)) := by
  have hlen : ((List.range n).map fun k => s.mem (pte2pa e + va % pgsize + k)).length = n := by simp
  have hsame : ∀ k < n, UserMapped s.mem root (va + k) e := fun k hk =>
    he.congr (div_eq_of_range hn ⟨by omega, by omega⟩)
  refine ⟨fun k hk => ?_, fun k hk => ⟨e, hsame k (hlen ▸ hk)⟩⟩
  rw [hlen] at hk
  have hcomm := add_mod_comm (div_eq_of_range (x := va + k) hn ⟨by omega, by omega⟩)
  have hoff : pte2pa e + va % pgsize + k = pte2pa e + (va + k) % pgsize := by omega
  rw [List.getElem?_map, List.getElem?_range hk, userView_some (hsame k hk).2.1, ← hoff]
  rfl

/-- The loop of `copyin` reads the range, or a first part of it. -/
theorem copyinFrom_runs {fuel len : ℕ} (h : ProcSpace img s root tf sz) (hfuel : len ≤ fuel) :
    Runs E (copyinFrom img ⟨sz, root⟩ root fuel va len) s fun r s' =>
      UserWrites img s s' root tf sz va 0 src ∧ ReadsUser s'.mem root sz va r.2 ∧
      (r.1 = 0 ∧ r.2.length = len ∨ r.1 = -1 ∧ r.2.length ≤ len) := by
  induction fuel generalizing s va len with
  | zero =>
    have hlen : len = 0 := by omega
    exact .pure ⟨UserWrites.refl h, ReadsUser.nil, .inl ⟨rfl, hlen.symm⟩⟩
  | succ fuel ih =>
    rw [copyinFrom]
    by_cases hlen : len = 0
    · rw [if_pos hlen]
      exact .pure ⟨UserWrites.refl h, ReadsUser.nil, .inl ⟨rfl, hlen.symm⟩⟩
    · rw [if_neg hlen]
      have hdiv : va / pgsize = pgrounddown va / pgsize := (pgrounddown_div va).symm
      refine .bind (userPage_runs h (.inl rfl)) ?_
      rintro pa s1 ⟨hw1, hpa⟩
      by_cases hzero : pa = 0
      · rw [if_pos hzero]
        exact .pure ⟨hw1 va src, ReadsUser.nil, .inr ⟨rfl, Nat.zero_le _⟩⟩
      · rw [if_neg hzero]
        obtain ⟨e, he, rfl, hpage⟩ := hpa.resolve_left fun hpa => hzero hpa.1
        refine .gets_bind ?_
        have hchunk := chunk_le va len
        have hva := (he.congr hdiv).1
        have hnext := @chunk_next va len hva
        have hpos := chunk_pos va hlen
        have hread : ReadsUser s1.mem root sz va _ := ReadsUser.of_page (he.congr hdiv) hchunk.1
        rw [← hchunk.2] at hread
        have hle : min (pgsize - (va - pgrounddown va)) len ≤ len := Nat.min_le_right _ _
        generalize min (pgsize - (va - pgrounddown va)) len = n at hnext hpos hle hread ⊢
        refine .bind (ih (hw1 va src).proc (by omega)) ?_
        rintro ⟨r, bytes⟩ s2 ⟨hw2, hread2, hres⟩
        refine .pure ⟨hw2.rebase.after (hw1 va src), ?_, ?_⟩
        · refine (hread.keeps hw2).append fun hne => ?_
          have hmore : n < len := by
            have := List.length_pos_iff.mpr hne
            omega
          rw [hnext hmore] at hread2
          rwa [List.length_map, List.length_range]
        · rw [List.length_append, List.length_map, List.length_range]
          rcases hres with ⟨hr, hb⟩ | ⟨hr, hb⟩
          · exact .inl ⟨hr, by dsimp only at hb ⊢; omega⟩
          · exact .inr ⟨hr, by dsimp only at hb ⊢; omega⟩

/-- The string is a part. -/
theorem length_untilNul (l : List UInt8) : (untilNul l).1.length ≤ l.length ∧
    ((untilNul l).2 = true → (untilNul l).1.length < l.length) := by
  induction l with
  | nil => exact ⟨le_rfl, fun h => by cases h⟩
  | cons c rest ih =>
    rw [untilNul]
    split
    · exact ⟨Nat.zero_le _, fun _ => Nat.succ_pos _⟩
    · exact ⟨Nat.succ_le_succ ih.1, fun h => Nat.succ_lt_succ (ih.2 h)⟩

/-- `copyinstr` changes nothing, and finds strings that leave room for the terminator. -/
theorem copyinstrFrom_runs {fuel max : ℕ} (ht : Table s.mem root) :
    Runs E (copyinstrFrom root fuel va max) s fun r s' =>
      s' = s ∧ ∀ str, r = some str → str.length < max := by
  induction fuel generalizing va max with
  | zero => exact .pure ⟨rfl, fun _ h => by cases h⟩
  | succ fuel ih =>
    rw [copyinstrFrom]
    by_cases hmax : max = 0
    · rw [if_pos hmax]
      exact .pure ⟨rfl, fun _ h => by cases h⟩
    rw [if_neg hmax]
    refine .of_eq_bind (walkaddr_eq ht _) ?_
    generalize (if pgrounddown va ≥ maxva then 0 else userPa _) = pa
    by_cases hpa : pa = 0
    · rw [if_pos hpa]
      exact .pure ⟨rfl, fun _ h => by cases h⟩
    rw [if_neg hpa]
    refine .gets_bind ?_
    generalize hbytes : List.map _ (List.range _) = bytes
    have hlen : bytes.length = min (pgsize - (va - pgrounddown va)) max := by
      rw [← hbytes, List.length_map, List.length_range]
    obtain ⟨hle, hlt⟩ := length_untilNul bytes
    by_cases hnul : (untilNul bytes).2 = true
    · rw [if_pos hnul]
      refine .pure ⟨rfl, fun str hstr => ?_⟩
      rw [← Option.some.inj hstr]
      exact (hlt hnul).trans_le (hlen.le.trans (Nat.min_le_right _ _))
    · rw [if_neg hnul]
      refine ih.bind ?_
      rintro r s' ⟨rfl, hstr⟩
      refine .pure ⟨rfl, fun str hsome => ?_⟩
      obtain ⟨rest, hrest, rfl⟩ := Option.map_eq_some_iff.mp hsome
      have hrestlen := hstr rest hrest
      rw [List.length_append]
      omega

/-- Where everything is mapped, `copyin` succeeds and changes nothing. -/
theorem copyinFrom_mapped {fuel len : ℕ} (h : ProcSpace img s root tf sz) (hfuel : len ≤ fuel)
    (hmapped : ∀ x, va ≤ x → x < va + len → ∃ e, UserMapped s.mem root x e) :
    ∃ bytes, copyinFrom img ⟨sz, root⟩ root fuel va len s = .ok (0, bytes) s := by
  induction fuel generalizing va len with
  | zero => exact ⟨[], rfl⟩
  | succ fuel ih =>
    rw [copyinFrom]
    by_cases hlen : len = 0
    · rw [if_pos hlen]
      exact ⟨[], rfl⟩
    · rw [if_neg hlen]
      obtain ⟨e, he⟩ := hmapped va le_rfl (by omega)
      have he' := he.congr (pgrounddown_div va)
      have hpa : (if pgrounddown va ≥ maxva then 0 else
          userPa (translate s.mem root (pgrounddown va))) = pte2pa e := by
        have := trapframeVa_lt_maxva
        have := he'.1
        rw [if_neg (by omega), he'.2.1, userPa, if_pos he'.2.2]
      have hne := (h.space.user.page va he.1 e he.2.1).pos
      have hpage : userPage img ⟨sz, root⟩ root (pgrounddown va) s = .ok (pte2pa e) s := by
        rw [userPage, bind_apply, walkaddr_eq h.space.table, ok_bind, hpa, if_neg hne,
          Seq.pure_apply]
      rw [bind_apply, hpage, ok_bind, if_neg hne, bind_apply]
      have hpos := chunk_pos va hlen
      have hnext := @chunk_next va len he.1
      have hle : min (pgsize - (va - pgrounddown va)) len ≤ len := Nat.min_le_right _ _
      generalize min (pgsize - (va - pgrounddown va)) len = n at hpos hnext hle ⊢
      rw [memmoveTo, Seq.gets_apply, ok_bind, bind_apply]
      by_cases hmore : n < len
      · obtain ⟨bytes, hb⟩ := @ih (va + n) (len - n) (by omega)
          fun x h1 h2 => hmapped x (by omega) (by omega)
        rw [hnext hmore, hb]
        exact ⟨_, rfl⟩
      · obtain ⟨bytes, hb⟩ := @ih ((pgrounddown va + pgsize) % 2 ^ 64) (len - n) (by omega)
          fun x h1 h2 => absurd h2 (by omega)
        rw [hb]
        exact ⟨_, rfl⟩

/-! ## What the copy functions do -/

/-- A byte of physical memory that changes belongs to what was overwritten, to a page that was
free, or to a page table. -/
theorem UserWrites.changed {x : ℕ} (hw : UserWrites img s s' root tf sz va n src)
    (hx : s'.mem x ≠ s.mem x) :
    (∃ y e, va ≤ y ∧ y < va + n ∧ UserMapped s'.mem root y e ∧ hasFlag e pteW = true ∧
      x = pte2pa e + y % pgsize) ∨
    ∃ a, (a ∈ s.freelist ∨ a ∈ tables s.mem root) ∧ InPage a x := by
  have hdm := Nat.div_add_mod x pgsize
  have hin : InPage (pgsize * (x / pgsize)) x :=
    ⟨by omega, by have : x % pgsize < pgsize := Nat.mod_lt _ (by decide)
                  omega⟩
  have hmod : pgsize * (x / pgsize) % pgsize = 0 := Nat.mul_mod_right _ _
  by_cases hfree : pgsize * (x / pgsize) ∈ s.freelist
  · exact .inr ⟨_, .inl hfree, hin⟩
  · by_cases hfoot : pgsize * (x / pgsize) ∈ footprint s.mem root
    · rcases hfoot with htab | ⟨y, hy, e, he, hpa⟩
      · exact .inr ⟨_, .inr htab, hin⟩
      · -- The byte is mapped at the offset of `x` in the page of `y`.
        left
        have hdiv : (pgsize * (y / pgsize) + x % pgsize) / pgsize = y / pgsize := by
          rw [Nat.mul_add_div (by decide), Nat.div_eq_of_lt (Nat.mod_lt _ (by decide)),
            Nat.add_zero]
        have hoff : (pgsize * (y / pgsize) + x % pgsize) % pgsize = x % pgsize := by
          rw [Nat.mul_add_mod, Nat.mod_mod]
        generalize pgsize * (y / pgsize) + x % pgsize = z at hdiv hoff
        have hz := lt_trapframeVa_of_div hdiv hy
        have hez : translate s.mem root z = some e := (translate_congr_va hdiv).trans he
        have hez' := hw.keeps z hz e hez
        have hview := hw.view z hz
        rw [userView_some hez', hoff, hpa, hdm, patch, userView_some hez, hoff, hpa, hdm] at hview
        split at hview
        · rename_i hrange
          obtain ⟨e', he', hwr⟩ := hw.written z hrange.1 hrange.2
          have hee : e' = e := Option.some.inj (he'.2.1.symm.trans hez')
          rw [hee] at he' hwr
          exact ⟨z, e, hrange.1, hrange.2, he', hwr, by rw [hpa, hoff, hdm]⟩
        · exact absurd (Option.some.inj hview) hx
    · exact absurd (hw.moves.frame _ hmod hfoot hfree x hin) hx

/-- What is mapped for a process stays mapped as it is: to the same page, with the same flags. -/
def KeepsMappings (s s' : Vm) (root : ℕ) : Prop :=
  ∀ x < trapframeVa, ∀ e, translate s.mem root x = some e → translate s'.mem root x = some e

/-- **Copies to and from user space.** For every process, address and length: `copyout` and
`copyin` return, and pages that are neither the process's own nor free are untouched. No page
that is mapped changes its flags: the guard page stays out of reach of user code, and a
read-only page read-only. `copyout` changes only writable user bytes of its range, besides page
tables and pages that were free; what it reports as written is read back by `copyin` without
another change; and all other user memory reads as before. `copyin` returns bytes of user
memory only, and user memory reads as before. -/
theorem copy_exact (h : ProcSpace img s root tf sz) (va len : ℕ) :
    (∀ src : ℕ → UInt8, ∃ r s', copyout img ⟨sz, root⟩ root va src len s = .ok r s' ∧
      (r = 0 ∨ r = -1) ∧ ProcSpace img s' root tf sz ∧
      Moves img s s' (footprint s.mem root) (footprint s'.mem root) ∧
      KeepsMappings s s' root ∧
      (∀ x, s'.mem x ≠ s.mem x →
        (∃ y e, va ≤ y ∧ y < va + len ∧ UserMapped s'.mem root y e ∧ hasFlag e pteW = true ∧
          x = pte2pa e + y % pgsize) ∨
        ∃ a, (a ∈ s.freelist ∨ a ∈ tables s.mem root) ∧ InPage a x) ∧
      (r = 0 → copyin img ⟨sz, root⟩ root va len s' = .ok (0, (List.range len).map src) s') ∧
      ∀ y < trapframeVa, ¬ (va ≤ y ∧ y < va + len) →
        userView s'.mem root sz y = userView s.mem root sz y) ∧
    ∃ r bytes s', copyin img ⟨sz, root⟩ root va len s = .ok (r, bytes) s' ∧
      (r = 0 ∧ bytes.length = len ∨ r = -1 ∧ bytes.length ≤ len) ∧ ProcSpace img s' root tf sz ∧
      Moves img s s' (footprint s.mem root) (footprint s'.mem root) ∧
      KeepsMappings s s' root ∧
      (∀ x, s'.mem x ≠ s.mem x → ∃ a, (a ∈ s.freelist ∨ a ∈ tables s.mem root) ∧ InPage a x) ∧
      (∀ k < bytes.length, ∃ e, UserMapped s'.mem root (va + k) e ∧
        bytes[k]? = some (s'.mem (pte2pa e + (va + k) % pgsize)) ∧
        bytes[k]? = userView s.mem root sz (va + k)) ∧
      ∀ y < trapframeVa, userView s'.mem root sz y = userView s.mem root sz y := by
  constructor
  · intro src
    have hruns : Runs (fun _ => False) (copyout img ⟨sz, root⟩ root va src len) s _ :=
      copyoutFrom_runs h (.inl rfl) le_rfl
    obtain ⟨r, s', heq, hpost⟩ := hruns.returns
    obtain ⟨n, hn, hw, hr⟩ : ∃ n ≤ len, UserWrites img s s' root tf sz va n src ∧
        (r = 0 ∧ n = len ∨ r = -1) := by
      rcases hpost with ⟨hr, hw⟩ | ⟨hr, n, hn, hw, -⟩
      · exact ⟨len, le_rfl, hw, .inl ⟨hr, rfl⟩⟩
      · exact ⟨n, hn, hw, .inr hr⟩
    refine ⟨r, s', heq, hr.imp_left And.left, hw.proc, hw.moves, hw.keeps, fun x hx => ?_,
      fun hr0 => ?_, fun y hy hout => ?_⟩
    · rcases hw.changed hx with ⟨y, e, h1, h2, hrest⟩ | hpage
      · exact .inl ⟨y, e, h1, by omega, hrest⟩
      · exact .inr hpage
    · have hall : n = len := by
        rcases hr with hr | hr
        · exact hr.2
        · rw [hr0] at hr
          exact absurd hr (by decide)
      rw [hall] at hw
      obtain ⟨bytes, hb⟩ := copyinFrom_mapped hw.proc le_rfl fun x h1 h2 => by
        obtain ⟨e, he, -⟩ := hw.written x h1 h2
        exact ⟨e, he⟩
      have hin : Runs (fun _ => False) (copyinFrom img ⟨sz, root⟩ root len va len) s' _ :=
        @copyinFrom_runs _ _ _ _ _ _ src _ _ _ hw.proc le_rfl
      obtain ⟨res, t, ht, -, hread, hres⟩ := hin.returns
      rw [hb] at ht
      cases ht
      have hblen : bytes.length = len := by
        rcases hres with hres | hres
        · exact hres.2
        · exact absurd (show (0 : ℤ) = -1 from hres.1) (by decide)
      rw [copyin, hb]
      congr 2
      refine List.ext_getElem? fun k => ?_
      by_cases hk : k < len
      · rw [hread.bytes_eq k (by omega), List.getElem?_map, List.getElem?_range hk]
        obtain ⟨e, he⟩ := hread.mapped k (by omega)
        rw [hw.view _ he.1, patch, if_pos (by omega), Nat.add_sub_cancel_left]
        rfl
      · rw [List.getElem?_eq_none (by omega), List.getElem?_eq_none (by simp; omega)]
    · rw [hw.view y hy, patch, if_neg (by omega)]
  · have hruns : Runs (fun _ => False) (copyin img ⟨sz, root⟩ root va len) s _ :=
      @copyinFrom_runs _ _ _ _ _ _ (fun _ => 0) _ _ _ h le_rfl
    obtain ⟨⟨r, bytes⟩, s', heq, hw, hread, hres⟩ := hruns.returns
    have hview : ∀ y < trapframeVa, userView s'.mem root sz y = userView s.mem root sz y :=
      fun y hy => by rw [hw.view y hy, patch_zero]
    refine ⟨r, bytes, s', heq, hres, hw.proc, hw.moves, hw.keeps, fun x hx => ?_, fun k hk => ?_,
      hview⟩
    · rcases hw.changed hx with ⟨y, e, h1, h2, -⟩ | hpage
      · omega
      · exact hpage
    · obtain ⟨e, he⟩ := hread.mapped k hk
      have hb := hread.bytes_eq k hk
      exact ⟨e, he, hb.trans (userView_some he.2.1), hb.trans (hview _ he.1)⟩

/-- Two bytes are written into a page of the first process that is still to be filled in, and
read back. -/
theorem bootVm_copy_exact :
    ∃ s s', ProcSpace tinyImage s bootRoot bootTrapframe pgsize ∧
      copyout tinyImage ⟨pgsize, bootRoot⟩ bootRoot 10 (fun _ => 3) 2 s = .ok 0 s' ∧
      copyin tinyImage ⟨pgsize, bootRoot⟩ bootRoot 10 2 s' = .ok (0, [3, 3]) s' := by
  obtain ⟨s, heq, hproc⟩ := bootVm_proc (le_refl pgsize)
  obtain ⟨hout, -⟩ := copy_exact hproc 10 2
  obtain ⟨r, s', hrun, -, -, -, -, -, hread, -⟩ := hout fun _ => 3
  have hr : resultOf 7 ((procPagetable tinyImage bootTrapframe >>= fun root =>
      copyout tinyImage ⟨pgsize, root⟩ root 10 (fun _ => 3) 2) bootVm) = 0 := rfl
  rw [bind_apply, heq, ok_bind, hrun] at hr
  obtain rfl : r = 0 := hr
  exact ⟨s, s', hproc, hrun, hread rfl⟩

end RiscvKernel
