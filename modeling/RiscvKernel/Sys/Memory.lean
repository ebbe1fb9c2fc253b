import RiscvKernel.Sys.Procs

/-!
# The memory of a process

`sys_sbrk` grows and shrinks the memory of a process, eagerly or by moving the size alone. A
process that never grows lazily has no holes in its memory.
-/

namespace RiscvKernel.Sys

open Threads Function
open Threads.Seq (Runs)

variable {img : KernelImage} {all T : Set ℕ} {eager : Prop} {s s' : State}
  {cnt : FileId → ℕ} {p q : ProcId} {E : String → Prop}

/-- The memory of a process is mapped anew. -/
theorem Inv.resize {f : ℕ → Option ℕ} {sz : ℕ} {pr : Proc} (h : Inv img all eager s T cnt)
    (hp : (s.procs p).state ≠ .unused)
    (hm : Reshapes img s.vm s'.vm (s.procs p).pagetable f ∅ ∅) (hsz : sz ≤ trapframeVa)
    (huser : ∀ va, pgroundup sz ≤ va → va < trapframeVa → f va = none)
    (hkernel : ∀ va < 2 ^ 39, trapframeVa ≤ va → f va = translate s.vm.mem (s.procs p).pagetable va)
    (hdense : eager → ∀ va < pgroundup sz, f va ≠ none)
    (hpr : pr = { s.procs p with sz := sz }) (hslot : AtSlot s s' p pr) :
    Inv img all eager s' T cnt ∧ ∀ q ≠ p, SameSpace s s' q := by
  have hproc := (h.live hp).space.of_reshapes hm hsz huser hkernel
  refine h.step_space hp hm.footprint_moves hproc (fun heager va hva => ?_) hpr hslot.procs
    hslot.files
  rw [hm.map va ((hva.trans_le hproc.up_le).trans trapframeVa_lt)]
  exact hdense heager va hva

theorem pgroundup_mono {a b : ℕ} (h : a ≤ b) (hb : b ≤ trapframeVa) :
    pgroundup a ≤ pgroundup b := by
  have hmax := trapframeVa_lt_maxva
  have ha' := pgroundup_eq (show a ≤ maxva by omega)
  have hb' := pgroundup_eq (show b ≤ maxva by omega)
  simp only [pgsize] at *
  omega

theorem u64_of_nonneg {x : ℤ} (h0 : 0 ≤ x) (hlt : x < 2 ^ 64) : (u64 x : ℤ) = x := by
  unfold u64
  rw [Int.emod_eq_of_lt h0 hlt]
  omega

/-- `growproc`. The argument is an `int`. -/
theorem growproc_runs (h : Inv img all eager s T cnt) (hp : (s.procs p).state ≠ .unused) {n : ℤ}
    (hn : n < 2 ^ 31) :
    Runs E (growproc img p n) s fun r s' =>
      (r = -1 ∧ Inv img all eager s' T cnt ∧ OwnStep p s s') ∨
      (r = 0 ∧ Inv img all eager s' T cnt ∧ s'.files = s.files ∧ (∀ q ≠ p, SameSpace s s' q) ∧
        ∃ sz, s'.procs = update s.procs p { s.procs p with sz := sz }) := by
  have hlive := h.live hp
  have hle := hlive.space.sz_le
  have hup := hlive.space.up_le
  have htop : trapframeVa < 2 ^ 39 := trapframeVa_lt
  unfold growproc
  refine .gets_bind ?_
  by_cases hpos : n > 0
  · rw [if_pos hpos]
    by_cases hbig : u64 ((s.procs p).sz + n) > trapframeVa
    · rw [if_pos hbig]
      exact .pure (.inl ⟨rfl, h, OwnStep.refl p s⟩)
    rw [if_neg hbig]
    have hnew : (u64 ((s.procs p).sz + n) : ℤ) = (s.procs p).sz + n :=
      u64_of_nonneg (by omega) (by omega)
    generalize u64 ((s.procs p).sz + n) = newsz at hbig hnew
    have hmono := pgroundup_mono (show (s.procs p).sz ≤ newsz by omega) (by omega)
    refine lift_bind (uvmalloc_runs hlive.space.space hle (by decide) hlive.space.user
      (.inl (by omega))) ?_
    rintro r vm' (⟨hlt, -⟩ | ⟨hge, rfl, -, hfills⟩ | ⟨rfl, hm⟩)
    · omega
    · rw [if_neg (by omega)]
      refine setProc_bind (AtSlot.refl s p).vm fun s1 hslot1 hvm1 => .pure (.inr ?_)
      have hvm1 : s1.vm = vm' := hvm1
      subst hvm1
      obtain ⟨h₁, hothers1⟩ := h.resize hp hfills.reshapes (by omega) (fun va h1 h2 => by
          rw [hfills.outside va (by omega) (by omega)]
          exact hlive.space.user va (by omega) h2)
        (fun va h1 h2 => hfills.outside va h1 fun hin => by
          have := pgroundup_le (show r ≤ trapframeVa by omega) trapframeVa_mod
            trapframeVa_lt_maxva.le
          omega)
        (fun heager va hva => by
          by_cases hold : va < pgroundup (s.procs p).sz
          · rw [hfills.outside va (by omega) (by omega)]
            exact hlive.dense heager va hold
          · obtain ⟨_, -, hmap, -⟩ := hfills.inside va (by omega) hva
            rw [hmap]
            exact Option.some_ne_none _) rfl hslot1
      exact ⟨rfl, h₁, hslot1.files, hothers1, _, hslot1.procs⟩
    · rw [if_pos rfl]
      refine .pure (.inl ⟨rfl, ?_⟩)
      exact h.touch hp (Touches.of_same hlive.space hm)
  rw [if_neg hpos]
  by_cases hneg : n < 0
  · rw [if_pos hneg]
    generalize u64 ((s.procs p).sz + n) = newsz
    refine lift_bind (uvmdealloc_runs hlive.space.space hle) ?_
    rintro r vm' ⟨rfl, hm⟩
    refine setProc_bind (AtSlot.refl s p).vm fun s1 hslot1 hvm1 => .pure (.inr ?_)
    have hvm1 : s1.vm = vm' := hvm1
    subst hvm1
    obtain ⟨h₁, hothers1⟩ : Inv img all eager s1 T cnt ∧ ∀ q ≠ p, SameSpace s s1 q := by
      by_cases hless : newsz < (s.procs p).sz
      · rw [if_pos hless] at hm
        have hmin : min (s.procs p).sz newsz = newsz := by omega
        rw [hmin] at hslot1
        have hmono := pgroundup_mono hless.le hle
        refine h.resize hp hm (by omega) (fun va h1 h2 => ?_) (fun va h1 h2 => ?_)
          (fun heager va hva => ?_) rfl hslot1
        · unfold cutRange
          split
          · rfl
          · exact hlive.space.user va (by omega) h2
        · rw [cutRange, if_neg (by omega)]
        · rw [cutRange, if_neg (by omega)]
          exact hlive.dense heager va (by omega)
      · rw [if_neg hless] at hm
        have hmin : min (s.procs p).sz newsz = (s.procs p).sz := by omega
        rw [hmin] at hslot1
        exact h.resize hp hm hle hlive.space.user (fun _ _ _ => rfl) hlive.dense rfl hslot1
    exact ⟨rfl, h₁, hslot1.files, hothers1, _, hslot1.procs⟩
  · rw [if_neg hneg]
    exact .pure (.inr ⟨rfl, h, rfl, fun q _ => SameSpace.refl s q, (s.procs p).sz,
      (update_eq_self p s.procs).symm⟩)

/-- The state of the descriptors after a call that has only changed the memory of its caller. -/
theorem Post.of_space {r : ℤ} {pt sz : ℕ} (h : Settled img all T eager s)
    (h' : Inv img all eager s' T (refs s)) (hr : r ≠ -1) (hfiles : s'.files = s.files)
    (hprocs : s'.procs = update s.procs p { s.procs p with pagetable := pt, sz := sz }) :
    Post img all T eager p s r s' := by
  have hsame : ∀ q, (s'.procs q).state = (s.procs q).state ∧
      (s'.procs q).ofile = (s.procs q).ofile := by
    intro q
    rw [hprocs]
    by_cases hq : q = p
    · subst hq
      rw [update_self]
      exact ⟨rfl, rfl⟩
    · rw [update_of_ne hq]
      exact ⟨rfl, rfl⟩
  refine ⟨h.of_inv ?_ (fun q => (hsame q).1) (fun q _ => (hsame q).2), fun heq => absurd heq hr,
    fun a ha hna => ?_⟩
  · rwa [refs_eq fun q => (hsame q).2]
  · rw [hfiles] at hna
    exact absurd ha hna

/-- `sys_sbrk`. The arguments are `int`s; when memory must not have holes, it grows eagerly. -/
theorem sysSbrk_runs (h : Settled img all T eager s) (hp : Active s p) {n t : ℤ} (hn : n < 2 ^ 31)
    (heager : eager → t = sbrkEager ∨ n ≤ 0) :
    Runs E (sysSbrk img p n t) s fun r s' => Post img all T eager p s r s' := by
  have hlive := h.inv.live hp.1
  have hle := hlive.space.sz_le
  have htop : trapframeVa < 2 ^ 39 := trapframeVa_lt
  unfold sysSbrk
  refine .gets_bind ?_
  by_cases hgrow : t = sbrkEager ∨ n < 0
  · rw [if_pos hgrow]
    refine (growproc_runs h.inv hp.1 hn).bind ?_
    rintro r s1 (⟨rfl, h₁, hstep1⟩ | ⟨rfl, h₁, hfiles1, -, sz, hprocs1⟩)
    · rw [if_pos (by decide)]
      exact .pure (Post.of_kept h h₁ (FilesKept.of_eq hstep1.files) hstep1.procs
        hstep1.within _)
    · rw [if_neg (by decide)]
      exact .pure (Post.of_space h h₁ (by omega) hfiles1 hprocs1)
  rw [if_neg hgrow]
  split
  · exact .pure (Post.refl h _)
  split
  · exact .pure (Post.refl h _)
  next hwrap hbig =>
  have hnew : (u64 ((s.procs p).sz + n) : ℤ) = (s.procs p).sz + n :=
    u64_of_nonneg (by omega) (by omega)
  refine setProc_bind (AtSlot.refl s p) fun s1 hslot1 hvm1 => .pure ?_
  generalize u64 ((s.procs p).sz + n) = newsz at hbig hnew hslot1
  have hmono := pgroundup_mono (show (s.procs p).sz ≤ newsz by omega) (by omega)
  have hm : Reshapes img s.vm s1.vm (s.procs p).pagetable
      (translate s.vm.mem (s.procs p).pagetable) ∅ ∅ := by
    rw [hvm1]
    exact Reshapes.refl hlive.space.space
  obtain ⟨h₁, -⟩ := h.inv.resize hp.1 hm (by omega)
    (fun va h1 h2 => hlive.space.user va (by omega) h2) (fun _ _ _ => rfl)
    (fun he va hva => by
      have hzero : newsz = (s.procs p).sz := by
        rcases heager he with ht | hn0
        · exact absurd (.inl ht) hgrow
        · omega
      rw [hzero] at hva
      exact hlive.dense he va hva) rfl hslot1
  exact Post.of_space h h₁ (by omega) hslot1.files hslot1.procs

/-! ## Faults and copies -/

/-- `vmfault`, called by a process for its own memory. -/
theorem vmfault_inv (h : Inv img all eager s T cnt) (hp : (s.procs p).state ≠ .unused) (va : ℕ) :
    Runs E (lift (vmfault img (s.procs p).space (s.procs p).pagetable va)) s fun _ s' =>
      Inv img all eager s' T cnt ∧ OwnStep p s s' := by
  have hlive := h.live hp
  refine lift_runs (vmfault_runs hlive.space.space hlive.space.sz_le) ?_
  rintro r vm' (⟨-, hm⟩ | ⟨hva, hnone, hr, hm, hzero⟩)
  · exact h.touch hp (Touches.of_same hlive.space hm)
  · exact h.touch hp (Touches.of_fill hlive.space hva hnone hr (by decide) hm hzero)

/-- `copyin` for a process. -/
theorem copyinFor_runs (h : Inv img all eager s T cnt) (hp : (s.procs p).state ≠ .unused)
    (src len : ℕ) :
    Runs E (copyinFor img p src len) s fun r s' =>
      (r.1 = 0 ∨ r.1 = -1) ∧ Inv img all eager s' T cnt ∧ OwnStep p s s' := by
  have hrun : Runs E (copyin img (s.procs p).space (s.procs p).pagetable src len) s.vm
      fun r vm' => UserWrites img s.vm vm' _ _ _ src 0 (fun _ => 0) ∧ _ ∧ _ :=
    copyinFrom_runs (h.live hp).space le_rfl
  refine .gets_bind (lift_runs hrun ?_)
  rintro r vm' ⟨hw, -, hr⟩
  exact ⟨hr.imp And.left And.left, h.touch hp hw.touches⟩

/-- A call that has only used the memory of its caller. -/
theorem Post.of_own (h : Settled img all T eager s) (h' : Inv img all eager s' T (refs s))
    (hstep : OwnStep p s s') (r : ℤ) : Post img all T eager p s r s' :=
  Post.of_kept h h' (FilesKept.of_eq hstep.files) hstep.procs hstep.within r

end RiscvKernel.Sys
