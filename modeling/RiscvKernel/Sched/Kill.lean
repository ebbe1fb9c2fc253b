import Mathlib.Algebra.Group.Int.Defs
import RiscvKernel.Sched.Tree

/-!
# Free slots and kill

`allocproc` does not initialise the fields of the slot that it takes, so a process starts
clean only if every free slot is. `freeproc` clears all fields but the open files, which
`kexit` has closed long before. What remains is `kkill`: it compares the pid of every slot,
the free ones too, and a free slot has pid 0. So `kkill(0)` marks a free slot, and the next
process in it is born killed; without it free slots stay clean, and `kkill` hits only its
target.
-/

namespace RiscvKernel.Sched

open Function

variable {P : Type} [DecidableEq P] {calls : Call → Prop} {table : List P} {initproc : P}

/-- The pid that a process is killing. -/
def Pc.kills : Pc P → Option ℤ
  | .kill pid _ => some pid
  | .acquire _ k | .release _ k | .wakeup _ _ k | .yielded k | .sleepLock _ _ k
  | .sleepRelease _ _ k | .sleepPark _ _ k | .sleepTidy _ k => k.kills
  | _ => none

/-- A slot without any trace of an earlier process. -/
structure Slot.Clean (t : Slot P) : Prop where
  pid : t.pid = 0
  killed : t.killed = false
  chan : t.chan = none
  parent : t.parent = none
  sz : t.sz = 0
  pagetable : t.pagetable = false
  trapframe : t.trapframe = false
  ofile : ∀ fd, t.ofile fd = false

omit [DecidableEq P] in
/-- `freeproc` clears everything but the open files. -/
theorem Slot.freeproc_clean {t : Slot P} (ht : ∀ fd, t.ofile fd = false) : t.freeproc.Clean :=
  ⟨rfl, rfl, rfl, rfl, rfl, rfl, rfl, ht⟩

/-- The free slots are clean, an exiting process has closed its files, and nobody kills
pid 0. -/
structure FreeClean (s : State P) : Prop where
  unused : ∀ p, (s.slot p).state = .unused → (s.slot p).Clean
  files : ∀ p, (s.pc p).reparents ≠ none → ∀ fd, (s.slot p).ofile fd = false
  kills : ∀ p, (s.pc p).kills ≠ some 0

namespace FreeClean

variable {s s' : State P} {r : P}

/-- A slot update that leaves the slot in use. -/
theorem unused_update (h : FreeClean s) {x : P} {t : Slot P} (ht : t.state ≠ .unused) (p : P)
    (hp : (update s.slot x t p).state = .unused) :
    (update s.slot x t p).Clean := by
  by_cases hpx : p = x
  · subst hpx
    rw [update_self] at hp
    exact absurd hp ht
  · rw [update_of_ne hpx] at hp ⊢
    exact h.unused p hp

/-- A slot update that keeps the open files. -/
theorem ofile_update {x : P} {t : Slot P} (ht : t.ofile = (s.slot x).ofile) (p : P) :
    (update s.slot x t p).ofile = (s.slot p).ofile := by
  by_cases hpx : p = x
  · subst hpx
    rw [update_self, ht]
  · rw [update_of_ne hpx]

/-- A step of one process that frees no slot and opens no file. -/
theorem goto (h : FreeClean s) {j k : Pc P} (hj : s.pc r = j)
    (hpc : s'.pc = update s.pc r k)
    (hunused : ∀ p, (s'.slot p).state = .unused → (s'.slot p).Clean)
    (hfiles : ∀ p, (s'.slot p).ofile = (s.slot p).ofile)
    (hk : k.reparents ≠ none → j.reparents ≠ none) (hkills : k.kills ≠ some 0) :
    FreeClean s' := by
  subst hj
  refine ⟨hunused, fun p hp fd => ?_, fun p => ?_⟩
  · rw [hfiles]
    by_cases hpr : p = r
    · subst hpr
      rw [hpc, update_self] at hp
      exact h.files p (hk hp) fd
    · rw [hpc, update_of_ne hpr] at hp
      exact h.files p hp fd
  · rw [hpc]
    by_cases hpr : p = r
    · rw [hpr, update_self]
      exact hkills
    · rw [update_of_ne hpr]
      exact h.kills p

omit [DecidableEq P] in
/-- A step after which the process is where its continuation says. -/
theorem kills_same (h : FreeClean s) {j k : Pc P} (hj : s.pc r = j) (hk : k.kills = j.kills) :
    k.kills ≠ some 0 := by
  rw [hk, ← hj]
  exact h.kills r

/-- A slot is freed, by a failed fork or by `kwait`. -/
theorem free (h : FreeClean s) {q : P} {k k' : Pc P}
    (hofile : ∀ fd, (s.slot q).ofile fd = false)
    (hslot : s'.slot = update s.slot q (s.slot q).freeproc)
    (hpc : s'.pc = update (update s.pc q k') r k)
    (hk : k.reparents = none) (hkills : k.kills = none) (hkills' : k'.kills ≠ some 0) :
    FreeClean s' := by
  refine ⟨fun p hp => ?_, fun p hp fd => ?_, fun p => ?_⟩
  · rw [hslot] at hp ⊢
    by_cases hpq : p = q
    · rw [hpq, update_self]
      exact Slot.freeproc_clean hofile
    · rw [update_of_ne hpq] at hp ⊢
      exact h.unused p hp
  · rw [hslot]
    by_cases hpq : p = q
    · rw [hpq, update_self]
      exact hofile fd
    · rw [update_of_ne hpq]
      by_cases hpr : p = r
      · rw [hpc, hpr, update_self] at hp
        exact absurd hk hp
      · rw [hpc, update_of_ne hpr, update_of_ne hpq] at hp
        exact h.files p hp fd
  · rw [hpc]
    by_cases hpr : p = r
    · rw [hpr, update_self, hkills]
      simp
    · rw [update_of_ne hpr]
      by_cases hpq : p = q
      · rw [hpq, update_self]
        exact hkills'
      · rw [update_of_ne hpq]
        exact h.kills p

omit [DecidableEq P] in
/-- The slot that `kkill` hits is in use. -/
theorem killed_used (h : FreeClean s) {q : P} {pid : ℤ} {rest : List P}
    (hpc : s.pc r = .kill pid rest) (hpid : (s.slot q).pid = pid) :
    (s.slot q).state ≠ .unused := by
  intro hq
  have hkills := h.kills r
  rw [hpc, ← hpid, (h.unused q hq).pid] at hkills
  exact hkills rfl

/-- A section of a running process keeps the free slots clean. -/
theorem turn (h : FreeClean s) (hlocal : Local s) {k : Pc P}
    (hrun : (s.slot r).state = .running) (hpc : s.pc r = k)
    (hturn : Turn table initproc s r k s') : FreeClean s' := by
  cases hturn with
  | sleepPark =>
    exact h.goto hpc rfl (h.unused_update (by simp)) (ofile_update rfl) id (h.kills_same hpc rfl)
  | sleepTidy =>
    exact h.goto hpc rfl (h.unused_update (by simp [hrun])) (ofile_update rfl) id
      (h.kills_same hpc rfl)
  | @wakeupSlot q c =>
    have hwake : ∀ p, (update s.slot q (wakeSlot c (s.slot q)) p).state = .unused →
        (update s.slot q (wakeSlot c (s.slot q)) p).Clean := by
      unfold wakeSlot
      split_ifs
      · exact h.unused_update (by simp)
      · simpa using h.unused
    refine h.goto hpc rfl hwake (ofile_update ?_) id (h.kills_same hpc rfl)
    unfold wakeSlot
    split_ifs <;> rfl
  | killHit _ hpid =>
    have hused := h.killed_used hpc hpid
    refine h.goto hpc rfl (h.unused_update ?_) (ofile_update rfl) id (by simp [Pc.kills])
    unfold killSlot
    split_ifs <;> simp_all
  | @forkFail q _ _ _ hunused =>
    exact h.free (h.unused q hunused).ofile rfl
      (by rw [update_eq_self q s.pc]; rfl) rfl rfl (h.kills q)
  | @forkChild q _ _ hunused =>
    have hqr : q ≠ r := slot_ne hunused hrun (by decide)
    refine ⟨h.unused_update (by simp [forkSlot]), fun p hp fd => ?_, fun p => ?_⟩
    · by_cases hpr : p = r
      · exact absurd (by simp [hpr, Pc.reparents]) hp
      · by_cases hpq : p = q
        · exact absurd (by simp [hpq, hqr, Pc.reparents]) hp
        · simpa [hpq] using h.files p (by simpa [hpr, hpq] using hp) fd
    · by_cases hpr : p = r
      · simp [hpr, Pc.kills]
      · by_cases hpq : p = q
        · simp [hpq, hqr, Pc.kills]
        · simpa [hpr, hpq] using h.kills p
  | @forkParent np =>
    have hused := hlocal.child r np (by rw [hpc]; rfl)
    exact h.goto hpc rfl (h.unused_update (by simp [hused])) (ofile_update rfl) id
      (by simp [Pc.kills])
  | forkRun =>
    exact h.goto hpc rfl (h.unused_update (by simp)) (ofile_update rfl) id (by simp [Pc.kills])
  | exitFiles =>
    refine ⟨h.unused_update (by simp [hrun]), fun p hp fd => ?_, fun p => ?_⟩
    · by_cases hpr : p = r
      · simp [hpr]
      · simpa [hpr] using h.files p (by simpa [hpr] using hp) fd
    · by_cases hpr : p = r
      · simp [hpr, Pc.kills]
      · simpa [hpr] using h.kills p
  | @exitReparentChild q _ _ hparent =>
    have hused : (s.slot q).state ≠ .unused := by
      intro hq
      rw [(h.unused q hq).parent] at hparent
      cases hparent
    exact h.goto hpc rfl (h.unused_update hused) (ofile_update rfl) (by simp [Pc.reparents])
      (by simp [Pc.kills])
  | exitZombie =>
    exact h.goto (k := .exitRelease) hpc rfl (h.unused_update (by simp)) (ofile_update rfl) id
      (by simp [Pc.kills])
  | @waitReap q _ _ _ _ hplock hzombie =>
    exact h.free (h.files q (by simp [hlocal.zombie hzombie hplock, Pc.reparents])) rfl rfl rfl rfl
      (by simp [Pc.kills])
  | acquire | release | sleepLock | sleepRelease | wakeupEnd | wakeupSelf | yielded | killNext =>
    exact h.goto hpc rfl h.unused (fun _ => rfl) id (h.kills_same hpc rfl)
  | _ =>
    exact h.goto hpc rfl h.unused (fun _ => rfl) (by simp [Pc.reparents]) (by simp [Pc.kills])

/-- Every move but a `kkill(0)` keeps the free slots clean. -/
theorem move (h : FreeClean s) (hlocal : Local s) (hcalls : ∀ c, calls c → c ≠ .kkill 0)
    (hmove : Move calls table initproc s s') : FreeClean s' := by
  cases hmove with
  | @call r c hrun hpc hadmitted hc =>
    refine h.goto hpc rfl h.unused (fun _ => rfl) ?_ ?_
    · cases c <;> simp [Call.start, Pc.reparents]
    · cases c with
      | kkill pid =>
        intro hpid
        cases hpid
        exact hcalls _ hc rfl
      | _ => simp [Call.start, Pc.kills]
  | @dispatch r =>
    exact h.goto (r := r) rfl (update_eq_self ..).symm (h.unused_update (by simp))
      (ofile_update rfl) id (h.kills r)
  | @preempt r =>
    exact h.goto rfl rfl (h.unused_update (by simp)) (ofile_update rfl) id (h.kills r)
  | @own r _ _ _ hrun hpc =>
    refine ⟨h.unused_update (by simp [hrun]), fun p hp fd => ?_, h.kills⟩
    have hpr : p ≠ r := by
      rintro rfl
      exact hp (by simp [hpc, Pc.reparents])
    simpa [hpr] using h.files p hp fd
  | turn hrun hpc hturn => exact h.turn hlocal hrun hpc hturn
  | exitRelease hpc | exitSched hpc =>
    exact h.goto hpc rfl h.unused (fun _ => rfl) id (by simp [Pc.kills])

/-- All slots but that of `initproc` are clean at the start. -/
theorem boot : FreeClean (State.boot initproc) := by
  refine ⟨fun p hp => ?_, fun p hp fd => ?_, fun p => ?_⟩
  · by_cases hpi : p = initproc
    · simp [State.boot, hpi] at hp
    · have hslot : (State.boot initproc).slot p = Slot.zero := by simp [State.boot, hpi]
      rw [hslot]
      exact ⟨rfl, rfl, rfl, rfl, rfl, rfl, rfl, fun _ => rfl⟩
  · by_cases hpi : p = initproc <;> simp [State.boot, hpi, Slot.zero]
  · by_cases hpi : p = initproc <;> simp [State.boot, hpi, Pc.kills]

end FreeClean

/-- The slot that `kkill(pid)` hits: it is in use and has this pid. -/
def Hits (pid : ℤ) (q : P) (s s' : State P) : Prop :=
  (s.slot q).state ≠ .unused ∧ (s.slot q).pid = pid ∧
    s'.slot = update s.slot q (killSlot (s.slot q)) ∧ s'.kills = s.kills ++ [(pid, 0)]

section Kkill

variable {s s' : State P} {p : P} {pid : ℤ} {rest : List P}

/-- One step of `kkill`: it hits a slot and returns 0, or it changes no slot. -/
theorem FreeClean.kill_step (h : FreeClean s) (hpc : s.pc p = .kill pid rest)
    (hstep : micro table initproc p s = some s') :
    (∃ q ∈ rest, Hits pid q s s') ∨
      s'.slot = s.slot ∧ (s'.kills = s.kills ∨ rest = [] ∧ s'.kills = s.kills ++ [(pid, -1)]) := by
  cases rest with
  | nil =>
    simp only [micro, hpc, Option.some.injEq] at hstep
    subst hstep
    exact .inr ⟨rfl, .inr ⟨rfl, rfl⟩⟩
  | cons q rest =>
    simp only [micro, hpc] at hstep
    split_ifs at hstep with hplock hpid
    · cases hstep
      exact .inl ⟨q, List.mem_cons_self, h.killed_used hpc hpid, hpid, rfl, rfl⟩
    · cases hstep
      exact .inr ⟨rfl, .inl rfl⟩

/-- A `kkill` that is not disturbed hits a slot with its pid, or returns -1 if there is
none. -/
theorem FreeClean.kill_runs (h : FreeClean s) (hrun : (s.slot p).state = .running)
    (hpc : s.pc p = .kill pid rest) (hplock : ∀ q ∈ rest, s.plock q = false) :
    ∃ n s', runs table initproc (List.replicate n (.step p)) s = some s' ∧ s'.pc p = .run ∧
      ((∃ q ∈ rest, Hits pid q s s') ∨
        (∀ q ∈ rest, (s.slot q).pid ≠ pid) ∧ s'.slot = s.slot ∧
          s'.kills = s.kills ++ [(pid, -1)]) := by
  -- The induction is on the slots that the loop has still to visit.
  induction rest generalizing s with
  | nil =>
    refine ⟨1, (s.endKill pid (-1)).goto p .run, ?_, by simp, .inr ⟨by simp, rfl, rfl⟩⟩
    simp [runs, exec, hrun, micro, hpc]
  | cons q rest ih =>
    have hq := hplock q List.mem_cons_self
    by_cases hpid : (s.slot q).pid = pid
    · refine ⟨1, ((s.setSlot q (killSlot (s.slot q))).endKill pid 0).goto p .run, ?_, by simp,
        .inl ⟨q, List.mem_cons_self, h.killed_used hpc hpid, hpid, rfl, rfl⟩⟩
      simp [runs, exec, hrun, micro, hpc, hq, hpid]
    · have hnext : FreeClean (s.goto p (.kill pid rest)) :=
        h.goto hpc rfl h.unused (fun _ => rfl) id (h.kills_same hpc rfl)
      obtain ⟨n, s', hs', hpc', hresult⟩ := ih hnext hrun (by simp)
        fun x hx => hplock x (List.mem_cons_of_mem q hx)
      refine ⟨n + 1, s', ?_, hpc', ?_⟩
      · rw [runs, List.replicate_succ, List.foldlM_cons]
        have hstep : exec table initproc (.step p) s = some (s.goto p (.kill pid rest)) := by
          simp [exec, hrun, micro, hpc, hq, hpid]
        rw [hstep]
        exact hs'
      · rcases hresult with ⟨x, hx, hhits⟩ | ⟨hnone, hslot, hkills⟩
        · exact .inl ⟨x, List.mem_cons_of_mem q hx, hhits⟩
        · refine .inr ⟨fun x hx => ?_, hslot, hkills⟩
          rcases List.mem_cons.mp hx with rfl | hx
          · exact hpid
          · exact hnone x hx

end Kkill

/-- What holds of the free slots and of every `kkill` in a state of a run. -/
structure KillsTarget (table : List P) (initproc : P) (s : State P) : Prop where
  /-- Every free slot is clean. -/
  unused : ∀ p, (s.slot p).state = .unused → (s.slot p).Clean
  /-- A new process is not killed. -/
  alloc : ∀ p q, (s.slot q).state = .unused →
    (forkSlot none s.nextpid (s.slot p) (s.slot q)).killed = false
  /-- A step of `kkill` hits its target or changes no slot. -/
  step : ∀ p pid rest s', s.pc p = .kill pid rest → micro table initproc p s = some s' →
    (∃ q ∈ rest, Hits pid q s s') ∨
      s'.slot = s.slot ∧ (s'.kills = s.kills ∨ rest = [] ∧ s'.kills = s.kills ++ [(pid, -1)])
  /-- A `kkill` that is not disturbed returns, and returns -1 only if no slot has this pid. -/
  returns : ∀ p pid rest, (s.slot p).state = .running → s.pc p = .kill pid rest →
    (∀ q ∈ rest, s.plock q = false) →
      ∃ n s', runs table initproc (List.replicate n (.step p)) s = some s' ∧ s'.pc p = .run ∧
        ((∃ q ∈ rest, Hits pid q s s') ∨
          (∀ q ∈ rest, (s.slot q).pid ≠ pid) ∧ s'.slot = s.slot ∧
            s'.kills = s.kills ++ [(pid, -1)])

/-- In every run without a `kkill(0)` free slots are clean and `kkill` hits only its target. -/
theorem kill_hits_target {s : State P}
    (h : ReachableBy (fun c => c ≠ .kkill 0) table initproc s) : KillsTarget table initproc s := by
  obtain ⟨-, -, hclean⟩ := h.induct (I := FreeClean) FreeClean.boot
    fun s s' hlocal _ hI hmove => hI.move hlocal (fun _ => id) hmove
  refine ⟨hclean.unused, fun p q hq => ?_, fun p pid rest s' hpc => hclean.kill_step hpc,
    fun p pid rest hrun hpc => hclean.kill_runs hrun hpc⟩
  exact (hclean.unused q hq).killed

/-- The first process forks a second one and kills it. -/
def killChild : List (Act (Fin 3)) :=
  [.dispatch 0, .step 0, .call 0 (.kfork none)] ++ List.replicate 6 (.step 0) ++
    [.call 0 (.kkill 2), .step 0, .step 0]

/-- In this run the second process is killed, and the slot after it is clean. -/
theorem killChild_hits :
    ∃ s, runs [0, 1, 2] 0 killChild (State.boot 0) = some s ∧ s.kills = [(2, 0)] ∧
      (s.slot 1).killed = true ∧ (s.slot 2).state = .unused ∧ KillsTarget [0, 1, 2] 0 s := by
  have hfacts : ((runs [0, 1, 2] 0 killChild (State.boot 0)).map fun s =>
      (s.kills, (s.slot 1).killed, (s.slot 2).state)) = some ([(2, 0)], true, .unused) := by
    decide +kernel
  obtain ⟨s, hs, heq⟩ := Option.map_eq_some_iff.mp hfacts
  simp only [Prod.mk.injEq] at heq
  refine ⟨s, hs, heq.1, heq.2.1, heq.2.2, kill_hits_target (ReachableBy.boot.runs ?_ hs)⟩
  rintro p c hc rfl
  simp [killChild] at hc

/-- The first process calls `kkill(0)`. -/
def killZero : List (Act (Fin 3)) :=
  [.dispatch 0, .step 0, .call 0 (.kkill 0), .step 0, .step 0]

/-- `kkill(0)` returns 0 and marks a free slot, so that the next child is born killed. -/
theorem killZero_marks_free_slot :
    ((runs [0, 1, 2] 0 killZero (State.boot 0)).map fun s =>
      (s.kills, (s.slot 1).state, (s.slot 1).killed)) = some ([(0, 0)], .unused, true) ∧
    ((runs [0, 1, 2] 0 (killZero ++ .call 0 (.kfork none) :: List.replicate 6 (.step 0))
      (State.boot 0)).map fun s => ((s.slot 1).state, (s.slot 1).pid, (s.slot 1).killed)) =
        some (.runnable, 2, true) := by
  constructor <;> decide +kernel

/-! ### Pids and spinlocks -/

/-- As long as `nextpid`, a C `int`, has not overflowed, the processes have pids of their own,
positive and in the range of an `int`. -/
theorem pids_stay_apart (h : Reachable table initproc s) (hint : s.nextpid < 2 ^ 31) :
    Pids s ∧ ∀ p, (s.slot p).state ≠ .unused → (s.slot p).pid < 2 ^ 31 - 1 := by
  have hpids := (h.induct (I := fun _ => True) trivial fun _ _ _ _ _ _ => trivial).2.1
  refine ⟨hpids, fun p hp => ?_⟩
  have hlt := (hpids.lt p hp).2
  omega

/-- The first process has forked a second one and taken `wait_lock`. -/
theorem killChild_forks : ∃ s, Reachable [0, 1, 2] (0 : Fin 3) s ∧ (s.slot 1).pid = 2 ∧
    s.nextpid = 3 ∧ (s.pc 0).holds = some .wait := by
  have hfacts : ((runs [0, 1, 2] 0 (killChild.take 6) (State.boot 0)).map fun s =>
      ((s.slot 1).pid, s.nextpid, (s.pc 0).holds)) = some (2, 3, some .wait) := by
    decide +kernel
  obtain ⟨s, hs, heq⟩ := Option.map_eq_some_iff.mp hfacts
  simp only [Prod.mk.injEq] at heq
  exact ⟨s, ReachableBy.boot.runs (fun _ _ _ => trivial) hs, heq⟩

/-- After the fork the two processes have pids of their own. -/
theorem pids_stay_apart_forked :
    ∃ s : State (Fin 3), (s.slot 1).pid = 2 ∧ s.nextpid < 2 ^ 31 ∧ Pids s := by
  obtain ⟨s, hs, hpid, hnext, -⟩ := killChild_forks
  have hint : s.nextpid < 2 ^ 31 := by
    rw [hnext]
    decide
  exact ⟨s, hpid, hint, (pids_stay_apart hs hint).1⟩

/-- In every run a spinlock is held by one process at most. -/
theorem spinlock_excludes (h : Reachable table initproc s) {l : Lock} {p q : P}
    (hp : (s.pc p).holds = some l) (hq : (s.pc q).holds = some l) : p = q := by
  have hlocal := (h.induct (I := fun _ => True) trivial fun _ _ _ _ _ _ => trivial).1
  have heq := ((hlocal.spin l p).2 hp).symm.trans ((hlocal.spin l q).2 hq)
  exact Option.some.inj heq

/-- The first process alone holds `wait_lock` while it sets the parent of its child. -/
theorem spinlock_excludes_wait : ∃ s : State (Fin 3), (s.pc 0).holds = some .wait ∧
    ∀ p, (s.pc p).holds = some .wait → p = 0 := by
  obtain ⟨s, hs, -, -, hwait⟩ := killChild_forks
  exact ⟨s, hwait, fun p hp => spinlock_excludes hs hp hwait⟩

end RiscvKernel.Sched
