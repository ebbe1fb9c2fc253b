import Mathlib.Data.Fintype.Prod
import RiscvKernel.Sys.Files

/-!
# File descriptors

Between two calls the counter of every open file is the number of descriptors that refer to
it. A call that fails leaves the descriptors and the counters as they were; all that can be
left of it are pages that it filled in for its caller.
-/

namespace RiscvKernel.Sys

open Threads Function
open Threads.Seq (Runs)

variable {img : KernelImage} {all T : Set ℕ} {eager : Prop} {s s' s'' : State}
  {cnt : FileId → ℕ} {f : FileId} {a : ℕ} {p q : ProcId} {fd : Fd} {v : Option FileId}
  {E : String → Prop}

/-- The number of descriptors that refer to each open file. -/
def refs (s : State) : FileId → ℕ :=
  Refs.count fun i : ProcId × Fd => (s.procs i.1).ofile i.2

/-- What holds between two calls. -/
structure Settled (img : KernelImage) (all T : Set ℕ) (eager : Prop) (s : State) : Prop where
  /-- The counters of the open files count descriptors. -/
  inv : Inv img all eager s T (refs s)
  /-- A process that has exited has closed its files. -/
  zombie : ∀ p, (s.procs p).state = .zombie → (s.procs p).ofile = fun _ => none
  /-- No process is being set up. -/
  ready : ∀ p, (s.procs p).state ≠ .used

/-- The process can make calls. -/
def Active (s : State) (p : ProcId) : Prop :=
  (s.procs p).state ≠ .unused ∧ (s.procs p).state ≠ .zombie

instance (s : State) (p : ProcId) : Decidable (Active s p) := inferInstanceAs (Decidable (_ ∧ _))

/-- Only the memory of `p` may have changed, and only by filling in pages. -/
structure Within (p : ProcId) (s s' : State) : Prop where
  /-- The other processes have the memory they had. -/
  others : ∀ q ≠ p, SameSpace s s' q
  /-- What was mapped stays mapped. -/
  own : (s.procs p).state ≠ .unused → (s'.procs p).state ≠ .unused ∧ ∀ x < trapframeVa, ∀ e,
    translate s.vm.mem (s.procs p).pagetable x = some e →
      translate s'.vm.mem (s'.procs p).pagetable x = some e

theorem Within.of_same (h : ∀ q, SameSpace s s' q) : Within p s s' :=
  ⟨fun q _ => h q, fun hne => ⟨((h p).2 hne).1, fun x _ _ he => (((h p).2 hne).2 x).trans he⟩⟩

theorem Within.trans (h : Within p s s') (h' : Within p s' s'') : Within p s s'' := by
  refine ⟨fun q hne => (h.others q hne).trans (h'.others q hne), fun hne => ?_⟩
  obtain ⟨hne', hown⟩ := h.own hne
  obtain ⟨hne'', hown'⟩ := h'.own hne'
  exact ⟨hne'', fun x hx e he => hown' x hx e (hown x hx e he)⟩

/-- What a failed call of `p` leaves behind. -/
structure Undone (p : ProcId) (s s' : State) : Prop where
  /-- The process table is as it was, and with it all descriptors. -/
  procs : s'.procs = s.procs
  /-- The counters of the open files are as they were. -/
  ref : ∀ f, (s'.files f).ref = (s.files f).ref
  /-- So are the pipes. -/
  pipes : livePipes s'.files = livePipes s.files
  /-- Pages may have been filled in. -/
  within : Within p s s'

theorem Undone.refl (p : ProcId) (s : State) : Undone p s s :=
  ⟨rfl, fun _ => rfl, rfl, Within.of_same (SameSpace.refl s)⟩

/-- A call keeps the counters exact, undoes what it did if it fails, and gives back the pages of
the pipes it closes. -/
structure Post (img : KernelImage) (all T : Set ℕ) (eager : Prop) (p : ProcId) (s : State) (r : ℤ)
    (s' : State) : Prop where
  /-- The counters are exact again. -/
  settled : Settled img all T eager s'
  /-- A failed call leaves nothing behind. -/
  undone : r = -1 → Undone p s s'
  /-- A pipe without ends has no page. -/
  freed : ∀ a ∈ livePipes s.files, a ∉ livePipes s'.files → a ∈ s'.vm.freelist

theorem Post.refl (h : Settled img all T eager s) (r : ℤ) : Post img all T eager p s r s :=
  ⟨h, fun _ => Undone.refl p s, fun _ ha hna => absurd ha hna⟩

/-- While nobody else takes pages, those of a closed pipe are free. -/
theorem Inv.freed {cnt' : FileId → ℕ} (h : Inv img all eager s T cnt)
    (h' : Inv img all eager s' T cnt') (hsame : ∀ q, SameSpace s s' q)
    (ha : a ∈ livePipes s.files) (hna : a ∉ livePipes s'.files) : a ∈ s'.vm.freelist := by
  have hall : a ∈ all := (h.shares.total a).mpr (.inr ⟨.pipes, ha⟩)
  obtain hfree | ⟨o, ho⟩ := (h'.shares.total a).mp hall
  · exact hfree
  · cases o with
    | proc q =>
      have hq : a ∈ (s.procs q).pages s.vm.mem := by
        rw [← (hsame q).1]
        exact ho
      exact absurd hq (h.shares.disjoint .pipes (.proc q) (by simp) a ha)
    | pipes => exact absurd ho hna
    | kernel => exact absurd ho (h.shares.disjoint .pipes .kernel (by simp) a ha)

/-! ## Descriptors -/

/-- The process table with a descriptor changed. -/
def setFd (procs : ProcId → Proc) (p : ProcId) (fd : Fd) (v : Option FileId) : ProcId → Proc :=
  update procs p { procs p with ofile := update (procs p).ofile fd v }

/-- The state with a descriptor changed. -/
def withFd (s : State) (p : ProcId) (fd : Fd) (v : Option FileId) : State :=
  { s with procs := setFd s.procs p fd v }

section SetFd

variable {procs : ProcId → Proc} {fd' : Fd} {v' : Option FileId}

theorem setFd_setFd : setFd (setFd procs p fd v) p fd v' = setFd procs p fd v' := by
  simp [setFd]

theorem setFd_comm (h : fd ≠ fd') :
    setFd (setFd procs p fd v) p fd' v' = setFd (setFd procs p fd' v') p fd v := by
  simp [setFd, update_comm h]

theorem setFd_eq_self (h : (procs p).ofile fd = v) : setFd procs p fd v = procs := by
  subst h
  simp [setFd]

end SetFd

/-- A descriptor that was free is free again. -/
theorem withFd_undo (h : (s.procs p).ofile fd = none) :
    withFd (withFd s p fd v) p fd none = s := by
  show { s with procs := setFd (setFd s.procs p fd v) p fd none } = s
  rw [setFd_setFd, setFd_eq_self h]

theorem clearFd_apply (s : State) (p : ProcId) (fd : Fd) :
    clearFd p fd s = .ok () (withFd s p fd none) := rfl

theorem withFd_self : (withFd s p fd v).procs p =
    { s.procs p with ofile := update (s.procs p).ofile fd v } := update_self _ _ _

theorem withFd_of_ne (h : q ≠ p) : (withFd s p fd v).procs q = s.procs q :=
  update_of_ne h _ _

theorem withFd_state (q : ProcId) : ((withFd s p fd v).procs q).state = (s.procs q).state := by
  by_cases h : q = p
  · subst h
    rw [withFd_self]
  · rw [withFd_of_ne h]

/-- References to a file when a descriptor changes. -/
theorem refs_withFd (s : State) (p : ProcId) (fd : Fd) (v : Option FileId) (g : FileId) :
    refs (withFd s p fd v) g + (if (s.procs p).ofile fd = some g then 1 else 0) =
      refs s g + (if v = some g then 1 else 0) := by
  have htable : (fun i : ProcId × Fd => ((withFd s p fd v).procs i.1).ofile i.2) =
      update (fun i : ProcId × Fd => (s.procs i.1).ofile i.2) (p, fd) v := by
    funext ⟨q, fd'⟩
    by_cases hq : q = p
    · subst hq
      by_cases hfd : fd' = fd
      · subst hfd
        simp [withFd_self]
      · simp [withFd_self, hfd]
    · simp [withFd_of_ne hq, hq]
  unfold refs
  rw [htable]
  exact Refs.count_update v

/-- A descriptor is set. -/
theorem refs_open (h : (s.procs p).ofile fd = none) :
    refs (withFd s p fd (some f)) = gain (refs s) f := by
  funext g
  have hcount := refs_withFd s p fd (some f) g
  rw [h, if_neg (by simp)] at hcount
  by_cases hg : g = f
  · subst hg
    rw [if_pos rfl] at hcount
    rw [gain_self]
    omega
  · rw [if_neg (by simpa using Ne.symm hg)] at hcount
    rw [gain_of_ne hg]
    omega

/-- A descriptor is cleared. -/
theorem refs_close (h : (s.procs p).ofile fd = some f) :
    refs (withFd s p fd none) = drop (refs s) f := by
  funext g
  have hcount := refs_withFd s p fd none g
  rw [h, if_neg (show ¬ (none : Option FileId) = some g by simp)] at hcount
  unfold drop
  by_cases hg : g = f
  · subst hg
    rw [if_pos rfl] at hcount
    rw [update_self]
    omega
  · rw [if_neg (by simpa using Ne.symm hg)] at hcount
    rw [update_of_ne hg]
    omega

/-- References depend on the descriptors. -/
theorem refs_eq (h : ∀ q, (s'.procs q).ofile = (s.procs q).ofile) : refs s' = refs s := by
  unfold refs
  simp only [h]

theorem refs_congr (h : s'.procs = s.procs) : refs s' = refs s := refs_eq fun q => by rw [h]

/-- A descriptor is a reference. -/
theorem refs_pos (h : (s.procs p).ofile fd = some f) : 0 < refs s f :=
  show 0 < Refs.count (fun i : ProcId × Fd => (s.procs i.1).ofile i.2) f from
    Refs.count_pos (i := (p, fd)) h

/-- A descriptor is not about memory. -/
theorem Inv.withFd (h : Inv img all eager s T cnt) (hp : (s.procs p).state ≠ .unused) (fd : Fd)
    (v : Option FileId) : Inv img all eager (withFd s p fd v) T cnt ∧
      ∀ q, SameSpace s (Sys.withFd s p fd v) q := by
  refine h.step_procs rfl (fun q => ?_) rfl
  by_cases hq : q = p
  · subst hq
    rw [withFd_self]
    exact .inr ⟨hp, hp, rfl, rfl, rfl⟩
  · rw [withFd_of_ne hq]
    exact Proc.SameMem.refl _

/-- `fdalloc` sets a free descriptor. -/
theorem fdalloc_runs :
    Runs E (fdalloc p f) s fun r s' =>
      (r = none ∧ s' = s) ∨
      ∃ fd, r = some fd ∧ (s.procs p).ofile fd = none ∧ s' = withFd s p fd (some f) := by
  unfold fdalloc
  refine .gets_bind ?_
  cases hfind : (List.finRange nofile).find? fun fd => ((s.procs p).ofile fd).isNone with
  | none => exact .pure (.inl ⟨rfl, rfl⟩)
  | some fd =>
    have hnone : (s.procs p).ofile fd = none := by simpa using List.find?_some hfind
    exact .modify_bind (.pure (.inr ⟨fd, rfl, hnone, rfl⟩))

/-- `argfd` finds a descriptor that is set. -/
theorem argfd_runs (n : ℤ) :
    Runs E (argfd p n) s fun r s' => s' = s ∧
      (r = none ∨ ∃ fd f, r = some (fd, f) ∧ (s.procs p).ofile fd = some f) := by
  unfold argfd
  refine .gets_bind ?_
  split
  next hn =>
    refine .pure ⟨rfl, ?_⟩
    cases hfd : (s.procs p).ofile ⟨n.toNat, by omega⟩ with
    | none => exact .inl rfl
    | some f => exact .inr ⟨_, f, rfl, hfd⟩
  next => exact .pure ⟨rfl, .inl rfl⟩

/-- The files that a process has closed, and nothing else, have changed. -/
theorem Settled.of_inv (h : Settled img all T eager s) (hinv : Inv img all eager s' T (refs s'))
    (hstate : ∀ q, (s'.procs q).state = (s.procs q).state)
    (hofile : ∀ q, (s.procs q).state = .zombie → (s'.procs q).ofile = (s.procs q).ofile) :
    Settled img all T eager s' := by
  refine ⟨hinv, fun q hz => ?_, fun q => ?_⟩
  · rw [hstate q] at hz
    rw [hofile q hz, h.zombie q hz]
  · rw [hstate q]
    exact h.ready q

/-- `sys_dup`. -/
theorem sysDup_runs (h : Settled img all T eager s) (hp : Active s p) (n : ℤ) :
    Runs E (sysDup p n) s fun r s' => Post img all T eager p s r s' := by
  unfold sysDup
  refine (argfd_runs n).bind ?_
  rintro _ _ ⟨rfl, rfl | ⟨fd, f, rfl, hfd⟩⟩
  · exact .pure (Post.refl h _)
  refine fdalloc_runs.bind ?_
  rintro _ s1 (⟨rfl, rfl⟩ | ⟨fd', rfl, hnone, rfl⟩)
  · exact .pure (Post.refl h _)
  obtain ⟨h1, hspace1⟩ := h.inv.withFd hp.1 fd' (some f)
  refine (filedup_runs h1 (refs_pos hfd)).bind ?_
  rintro _ s2 ⟨h2, hstep2, -⟩
  have hprocs := hstep2.procs
  refine .pure ⟨h.of_inv ?_ ?_ ?_, fun hr => ?_, fun a ha hna => ?_⟩
  · rwa [refs_congr hprocs, refs_open hnone]
  · intro q
    rw [hprocs, withFd_state]
  · intro q hz
    rw [hprocs, withFd_of_ne]
    rintro rfl
    exact hp.2 hz
  · omega
  · exact h.inv.freed h2 (fun q => (hspace1 q).trans (hstep2.space q)) ha hna

/-- `sys_close`. -/
theorem sysClose_runs (h : Settled img all T eager s) (hp : Active s p) (n : ℤ) :
    Runs E (sysClose img p n) s fun r s' => Post img all T eager p s r s' := by
  unfold sysClose
  refine (argfd_runs n).bind ?_
  rintro _ _ ⟨rfl, rfl | ⟨fd, f, rfl, hfd⟩⟩
  · exact .pure (Post.refl h _)
  refine .of_eq_bind (clearFd_apply _ _ _) ?_
  obtain ⟨h1, hspace1⟩ := h.inv.withFd hp.1 fd none
  refine (fileclose_runs h1 (refs_pos hfd)).bind ?_
  rintro _ s2 ⟨h2, hstep2, -⟩
  have hprocs := hstep2.procs
  refine .pure ⟨h.of_inv ?_ ?_ ?_, fun hr => ?_, fun a ha hna => ?_⟩
  · rwa [refs_congr hprocs, refs_close hfd]
  · intro q
    rw [hprocs, withFd_state]
  · intro q hz
    rw [hprocs, withFd_of_ne]
    rintro rfl
    exact hp.2 hz
  · cases hr
  · exact h.inv.freed h2 (fun q => (hspace1 q).trans (hstep2.space q)) ha hna

/-! ## Copying from and to the caller -/

/-- Only the memory of `p` has been used. -/
structure OwnStep (p : ProcId) (s s' : State) : Prop where
  /-- The process table is the same. -/
  procs : s'.procs = s.procs
  /-- So is `initproc`. -/
  initproc : s'.initproc = s.initproc
  /-- So are the open files. -/
  files : s'.files = s.files
  /-- Pages may have been filled in. -/
  within : Within p s s'

theorem OwnStep.refl (p : ProcId) (s : State) : OwnStep p s s :=
  ⟨rfl, rfl, rfl, Within.of_same (SameSpace.refl s)⟩

theorem OwnStep.trans (h : OwnStep p s s') (h' : OwnStep p s' s'') : OwnStep p s s'' :=
  ⟨h'.procs.trans h.procs, h'.initproc.trans h.initproc, h'.files.trans h.files,
    h.within.trans h'.within⟩

/-- The process uses its own memory. -/
theorem Inv.touch {vm' : Vm} (h : Inv img all eager s T cnt) (hp : (s.procs p).state ≠ .unused)
    (ht : Touches img s.vm vm' (s.procs p).pagetable (s.procs p).trapframe (s.procs p).sz) :
    Inv img all eager { s with vm := vm' } T cnt ∧ OwnStep p s { s with vm := vm' } := by
  have hlive := h.live hp
  obtain ⟨hinv, hothers⟩ : Inv img all eager { s with vm := vm' } T cnt ∧
      ∀ q ≠ p, SameSpace s { s with vm := vm' } q := by
    refine h.step_space hp ht.moves ht.proc (fun heager va hva => ?_) rfl
      (update_eq_self p s.procs).symm rfl
    cases he : translate s.vm.mem (s.procs p).pagetable va with
    | none => exact absurd he (hlive.dense heager va hva)
    | some e =>
      rw [ht.keeps va (hva.trans_le hlive.space.up_le) e he]
      exact Option.some_ne_none e
  exact ⟨hinv, rfl, rfl, rfl, hothers, fun _ => ⟨hp, ht.keeps⟩⟩

/-- `copyout` for a process. -/
theorem copyoutTo_runs (h : Inv img all eager s T cnt) (hp : (s.procs p).state ≠ .unused)
    (dst : ℕ) (src : ℕ → UInt8) (len : ℕ) :
    Runs E (copyoutTo img p dst src len) s fun r s' =>
      (r = 0 ∨ r = -1) ∧ Inv img all eager s' T cnt ∧ OwnStep p s s' := by
  refine .gets_bind (lift_runs (copyoutFrom_runs (h.live hp).space (.inl rfl) le_rfl) ?_)
  rintro r vm' (⟨hr, hw⟩ | ⟨hr, n, -, hw, -⟩)
  · exact ⟨.inl hr, h.touch hp hw.touches⟩
  · exact ⟨.inr hr, h.touch hp hw.touches⟩

/-- `copyinstr` for a process. -/
theorem copyinstrFor_runs (h : Inv img all eager s T cnt) (hp : (s.procs p).state ≠ .unused)
    (src max : ℕ) :
    Runs E (copyinstrFor p src max) s fun r s' =>
      s' = s ∧ ∀ str, r = some str → str.length < max := by
  refine .gets_bind (lift_runs (copyinstrFrom_runs (h.live hp).space.space.table) ?_)
  rintro r vm' ⟨rfl, hstr⟩
  exact ⟨rfl, hstr⟩

/-! ## New files -/

/-- The files that others refer to, and so the counters, are as they were. -/
theorem Undone.of_kept (h : Inv img all eager s T cnt) (h' : Inv img all eager s' T cnt)
    (hkept : FilesKept cnt s s') (hprocs : s'.procs = s.procs) (hwithin : Within p s s') :
    Undone p s s' :=
  ⟨hprocs, fun f => (h'.files.ref f).trans (h.files.ref f).symm, h.livePipes_eq h' hkept, hwithin⟩

/-- Pipes stay open. -/
theorem Inv.livePipes_subset (h : Inv img all eager s T cnt) (hkept : FilesKept cnt s s') :
    livePipes s.files ⊆ livePipes s'.files := by
  rintro a ⟨f, htype, hpipe⟩
  have hf : cnt f ≠ 0 := by
    intro hzero
    rw [h.files.type_of_zero hzero] at htype
    cases htype
  exact ⟨f, by rw [hkept f hf, htype], by rw [hkept f hf, hpipe]⟩

theorem FileStep.within (h : FileStep s s') : Within p s s' := Within.of_same h.space

/-- A call that fails before it has taken a descriptor for good. -/
theorem Post.of_kept (h : Settled img all T eager s) (h' : Inv img all eager s' T (refs s))
    (hkept : FilesKept (refs s) s s') (hprocs : s'.procs = s.procs) (hwithin : Within p s s')
    (r : ℤ) : Post img all T eager p s r s' := by
  refine ⟨h.of_inv ?_ ?_ ?_, fun _ => Undone.of_kept h.inv h' hkept hprocs hwithin,
    fun a ha hna => absurd (h.inv.livePipes_subset hkept ha) hna⟩
  · rwa [refs_congr hprocs]
  · intro q
    rw [hprocs]
  · intro q _
    rw [hprocs]

/-- A call that has set descriptors of its caller. -/
theorem Post.of_open {r : ℤ} (h : Settled img all T eager s) (hp : Active s p)
    (h' : Inv img all eager s' T (refs s')) (hr : r ≠ -1) (hkept : FilesKept (refs s) s s')
    (hprocs : ∀ q ≠ p, s'.procs q = s.procs q) (hstate : (s'.procs p).state = (s.procs p).state) :
    Post img all T eager p s r s' := by
  refine ⟨h.of_inv h' (fun q => ?_) (fun q hz => ?_), fun heq => absurd heq hr,
    fun a ha hna => absurd (h.inv.livePipes_subset hkept ha) hna⟩
  · by_cases hq : q = p
    · rw [hq, hstate]
    · rw [hprocs q hq]
  · rw [hprocs]
    rintro rfl
    exact hp.2 hz

/-- `sys_pipe`. -/
theorem sysPipe_runs (h : Settled img all T eager s) (hp : Active s p) (fdarray : ℕ) :
    Runs E (sysPipe img p fdarray) s fun r s' => Post img all T eager p s r s' := by
  unfold sysPipe
  refine (pipealloc_runs h.inv).bind ?_
  rintro _ s1 ⟨hstep1, hkept1, ⟨rfl, h1⟩ | ⟨rf, wf, rfl, hne, hrf, hwf, h1⟩⟩
  · exact .pure (Post.of_kept h h1 hkept1 hstep1.procs hstep1.within _)
  have hp1 : (s1.procs p).state ≠ .unused := by
    rw [hstep1.procs]
    exact hp.1
  -- Closing both ends in a state with the descriptors of `s` leads back to it.
  have hback : ∀ s2, Inv img all eager s2 T (gain (gain (refs s) rf) wf) →
      FilesKept (refs s) s s2 → s2.procs = s.procs → Within p s s2 →
      Runs E (fileclose img rf >>= fun _ => fileclose img wf >>= fun _ => pure (-1)) s2
        fun r s' => Post img all T eager p s r s' := by
    intro s2 h2 hkept2 hprocs2 hwithin2
    refine (closeBoth_runs h2 hne hrf hwf).mono ?_
    rintro r s3 ⟨-, h3, hstep3, hkept3⟩
    exact Post.of_kept h h3 (hkept2.trans hkept3) (hstep3.procs.trans hprocs2)
      (hwithin2.trans hstep3.within) _
  refine fdalloc_runs.bind ?_
  rintro _ s2 (⟨rfl, rfl⟩ | ⟨fd0, rfl, hfd0, rfl⟩)
  · exact hback _ h1 hkept1 hstep1.procs hstep1.within
  obtain ⟨h2, hspace2⟩ := h1.withFd hp1 fd0 (some rf)
  refine fdalloc_runs.bind ?_
  rintro _ s3 (⟨rfl, rfl⟩ | ⟨fd1, rfl, hfd1, rfl⟩)
  · refine .of_eq_bind (clearFd_apply _ _ _) ?_
    rw [withFd_undo hfd0]
    exact hback _ h1 hkept1 hstep1.procs hstep1.within
  obtain ⟨h3, hspace3⟩ := h2.withFd (by rwa [withFd_state]) fd1 (some wf)
  have hfd : fd0 ≠ fd1 := by
    rintro rfl
    rw [withFd_self] at hfd1
    simp at hfd1
  have hfd1' : (s1.procs p).ofile fd1 = none := by
    rw [withFd_self] at hfd1
    simpa [Ne.symm hfd] using hfd1
  have hrefs : refs (withFd (withFd s1 p fd0 (some rf)) p fd1 (some wf)) =
      gain (gain (refs s) rf) wf := by
    rw [refs_open hfd1, refs_open hfd0, refs_congr hstep1.procs]
  have hspace : ∀ q, SameSpace s (withFd (withFd s1 p fd0 (some rf)) p fd1 (some wf)) q :=
    fun q => ((hstep1.space q).trans (hspace2 q)).trans (hspace3 q)
  have hend : ∀ (r1 : ℤ) s4, Inv img all eager s4 T (gain (gain (refs s) rf) wf) →
      OwnStep p (withFd (withFd s1 p fd0 (some rf)) p fd1 (some wf)) s4 →
      Runs E (if r1 < 0 then do
          clearFd p fd0
          clearFd p fd1
          fileclose img rf
          fileclose img wf
          return -1
        else return 0) s4 fun r s' => Post img all T eager p s r s' := by
    intro r1 s4 h4 hstep4
    have hkept4 : FilesKept (refs s) s s4 := fun g hg => by
      rw [hstep4.files]
      exact hkept1 g hg
    have hp4 : (s4.procs p).state ≠ .unused := by
      rw [hstep4.procs, withFd_state, withFd_state]
      exact hp1
    split
    · refine .of_eq_bind (clearFd_apply _ _ _) ?_
      refine .of_eq_bind (clearFd_apply _ _ _) ?_
      obtain ⟨h5, hspace5⟩ := h4.withFd hp4 fd0 none
      obtain ⟨h6, hspace6⟩ := h5.withFd (by rwa [withFd_state]) fd1 none
      refine hback _ h6 hkept4 ?_ ?_
      · show setFd (setFd s4.procs p fd0 none) p fd1 none = s.procs
        rw [hstep4.procs]
        show setFd (setFd (setFd (setFd s1.procs p fd0 _) p fd1 _) p fd0 none) p fd1 none = s.procs
        rw [setFd_comm (Ne.symm hfd), setFd_setFd, setFd_setFd, setFd_eq_self hfd0,
          setFd_eq_self hfd1', hstep1.procs]
      · exact ((Within.of_same hspace).trans hstep4.within).trans
          (Within.of_same fun q => (hspace5 q).trans (hspace6 q))
    · refine .pure (Post.of_open h hp ?_ (by decide) hkept4 (fun q hq => ?_) ?_)
      · rwa [refs_congr hstep4.procs, hrefs]
      · rw [hstep4.procs, withFd_of_ne hq, withFd_of_ne hq, hstep1.procs]
      · rw [hstep4.procs, withFd_state, withFd_state, hstep1.procs]
  have hp3 : ((withFd (withFd s1 p fd0 (some rf)) p fd1 (some wf)).procs p).state ≠ .unused := by
    rwa [withFd_state, withFd_state]
  refine (copyoutTo_runs h3 hp3 _ _ _).bind ?_
  rintro r0 s4 ⟨-, h4, hstep4⟩
  split
  · exact hend (-1) s4 h4 hstep4
  · refine (copyoutTo_runs h4 (by rwa [hstep4.procs]) _ _ _).bind ?_
    rintro r1 s5 ⟨-, h5, hstep5⟩
    exact hend r1 s5 h5 (hstep4.trans hstep5)

/-- An open file that is no pipe is set up. -/
theorem setFile_runs {g : File → File} (h : Inv img all eager s T cnt) (hf : cnt f ≠ 0)
    (htype : (s.files f).type ≠ .pipe) (htype' : (g (s.files f)).type ≠ .pipe)
    (href : (g (s.files f)).ref = (s.files f).ref) :
    Runs E (setFile f g) s fun _ s' =>
      Inv img all eager s' T cnt ∧ FileStep s s' ∧
      s'.files = update s.files f (g (s.files f)) := by
  refine .modify ?_
  have hset := h.set_files (h.files.set_other htype htype' (href.trans (h.files.ref f))
    fun hz => absurd hz hf)
  rw [update_eq_self] at hset
  exact ⟨hset.1, hset.2, rfl⟩

/-- `sys_open`. -/
theorem sysOpen_runs (h : Settled img all T eager s) (hp : Active s p) (path : ℕ)
    (wronly rdwr : Bool) (lookup : List UInt8 → Option Opened) :
    Runs E (sysOpen img p path wronly rdwr lookup) s fun r s' =>
      Post img all T eager p s r s' := by
  unfold sysOpen
  refine (copyinstrFor_runs h.inv hp.1 _ _).bind ?_
  rintro path' s0 ⟨hs0, -⟩
  rw [hs0]
  cases path' with
  | none => exact .pure (Post.refl h _)
  | some path' =>
  cases hlookup : lookup path' with
  | none =>
    simp only [hlookup]
    exact .pure (Post.refl h _)
  | some ip =>
  simp only [hlookup]
  split
  · exact .pure (Post.refl h _)
  refine (filealloc_runs h.inv).bind ?_
  rintro _ s1 (⟨rfl, rfl⟩ | ⟨f, rfl, hf, -, hfiles1, h1, hstep1⟩)
  · exact .pure (Post.refl h _)
  have hkept1 : FilesKept (refs s) s s1 := FilesKept.of_update hfiles1 hf
  have hp1 : (s1.procs p).state ≠ .unused := by
    rw [hstep1.procs]
    exact hp.1
  refine fdalloc_runs.bind ?_
  rintro _ s2 (⟨rfl, rfl⟩ | ⟨fd, rfl, hfd, rfl⟩)
  · refine (fileclose_runs h1 (by rw [gain_self]; omega)).bind ?_
    rintro _ s3 ⟨h3, hstep3, hfiles3⟩
    rw [drop_gain] at h3
    exact .pure (Post.of_kept h h3 (hkept1.trans (FilesKept.of_update hfiles3 hf))
      (hstep1.trans hstep3).procs (hstep1.trans hstep3).within _)
  obtain ⟨h2, -⟩ := h1.withFd hp1 fd (some f)
  have hf2 : gain (refs s) f f ≠ 0 := by
    rw [gain_self]
    omega
  have htype2 : (s1.files f).type = .none := by
    rw [hfiles1, update_self]
    exact h.inv.files.type_of_zero hf
  have hrefs : refs (withFd s1 p fd (some f)) = gain (refs s) f := by
    rw [refs_open hfd, refs_congr hstep1.procs]
  -- Whatever the type, the last step sets the mode.
  have hlast : ∀ s3 x, Inv img all eager s3 T (gain (refs s) f) →
      FileStep (withFd s1 p fd (some f)) s3 → x.type ≠ .pipe →
      s3.files = update s1.files f x →
      Runs E (setFile f (fun x => { x with readable := !wronly, writable := wronly || rdwr })
        >>= fun _ => pure ((fd : ℕ) : ℤ)) s3 fun r s' => Post img all T eager p s r s' := by
    intro s3 x h3 hstep3 hx hfiles3
    have hx3 : (s3.files f).type ≠ .pipe := by
      rw [hfiles3, update_self]
      exact hx
    refine (setFile_runs h3 hf2 hx3 hx3 rfl).bind ?_
    rintro _ s4 ⟨h4, hstep4, hfiles4⟩
    have hprocs := (hstep3.trans hstep4).procs
    refine .pure (Post.of_open h hp ?_ (by omega) ?_ (fun q hq => ?_) ?_)
    · rwa [refs_congr hprocs, hrefs]
    · exact (hkept1.trans (FilesKept.of_update hfiles3 hf)).trans (FilesKept.of_update hfiles4 hf)
    · rw [hprocs, withFd_of_ne hq, hstep1.procs]
    · rw [hprocs, withFd_state, hstep1.procs]
  have htype3 : ((withFd s1 p fd (some f)).files f).type ≠ .pipe := by
    show (s1.files f).type ≠ .pipe
    rw [htype2]
    decide
  dsimp only
  split
  · refine (setFile_runs h2 hf2 htype3 (by simp) rfl).bind ?_
    rintro _ s3 ⟨h3, hstep3, hfiles3⟩
    exact hlast s3 _ h3 hstep3 (by simp) hfiles3
  · refine (setFile_runs h2 hf2 htype3 (by simp) rfl).bind ?_
    rintro _ s3 ⟨h3, hstep3, hfiles3⟩
    exact hlast s3 _ h3 hstep3 (by simp) hfiles3

end RiscvKernel.Sys
