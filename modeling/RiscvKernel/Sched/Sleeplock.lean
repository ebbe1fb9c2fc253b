import RiscvKernel.Sched.Handover

/-!
# Sleep-locks

A sleep-lock has at most one holder, its `pid` field names the holder, and nobody sleeps on
a sleep-lock that is free. The first two follow from the fact that `locked` and `pid` change
under the inner spinlock only; the third from the hand-over of `sleep` and `wakeup`.
-/

namespace RiscvKernel.Sched

open Function

variable {P : Type} [DecidableEq P] {calls : Call → Prop} {table : List P} {initproc : P}

/-- The process is in `kexit`, or its slot has no process. -/
def Pc.leaving : Pc P → Bool
  | .unused | .zombie | .exitFiles _ | .exitReparent _ _ | .exitZombie _ | .exitRelease
  | .exitSched => true
  | .acquire _ k | .release _ k | .wakeup _ _ k | .yielded k | .sleepLock _ _ k
  | .sleepRelease _ _ k | .sleepPark _ _ k | .sleepTidy _ k => k.leaving
  | _ => false

/-- The process is in `releasesleep` and has not released the lock yet. -/
def Pc.releasing : Pc P → Bool
  | .releasesleep => true
  | .acquire _ k | .release _ k | .wakeup _ _ k | .yielded k | .sleepLock _ _ k
  | .sleepRelease _ _ k | .sleepPark _ _ k | .sleepTidy _ k => k.releasing
  | _ => false

/-- The invariant of the sleep-lock. -/
structure Sleeplock (s : State P) : Prop where
  holder : ∀ p, s.held p = true →
    s.locked = true ∧ s.lkpid = (s.slot p).pid ∧ (s.pc p).leaving = false
  held : s.locked = true → ∃ p, s.held p = true
  releasing : ∀ p, (s.pc p).releasing = true → s.held p = true
  waiting : ∀ p, s.Waiting .sleeplk p → s.locked = true ∨ s.Covered .sleeplk p

namespace Sleeplock

variable {s s' : State P}

omit [DecidableEq P] in
/-- A slot whose process is not leaving is in use. -/
theorem in_use (hlocal : Local s) {p : P} (hp : (s.pc p).leaving = false) :
    (s.slot p).state ≠ .unused := by
  have hfits := hlocal.fits p
  intro hunused
  rw [hunused] at hfits
  cases hpc : s.pc p <;> simp_all [Pc.fits, Pc.leaving]

omit [DecidableEq P] in
/-- There is at most one holder. -/
theorem unique (h : Sleeplock s) (hlocal : Local s) (hpids : Pids s) {p q : P}
    (hp : s.held p = true) (hq : s.held q = true) : p = q := by
  obtain ⟨-, hpidp, hleavep⟩ := h.holder p hp
  obtain ⟨-, hpidq, hleaveq⟩ := h.holder q hq
  exact hpids.inj p q (in_use hlocal hleavep) (in_use hlocal hleaveq) (hpidp.symm.trans hpidq)

/-- A step that does not touch the sleep-lock. -/
theorem frame (h : Sleeplock s) (hlocal : Local s) (hmove : Move calls table initproc s s')
    (hlocked : s'.locked = s.locked) (hlkpid : s'.lkpid = s.lkpid) (hheld : s'.held = s.held)
    (hpid : ∀ p, s.held p = true → (s'.slot p).pid = (s.slot p).pid)
    (hleaving : ∀ p, s.held p = true → (s'.pc p).leaving = false)
    (hreleasing : ∀ p, (s'.pc p).releasing = true → s.held p = true) : Sleeplock s' where
  holder p hp := by
    rw [hheld] at hp
    obtain ⟨hl, hpid', -⟩ := h.holder p hp
    exact ⟨by rw [hlocked, hl], by rw [hlkpid, hpid', hpid p hp], hleaving p hp⟩
  held hl := by
    rw [hheld]
    exact h.held (hlocked ▸ hl)
  releasing p hp := by
    rw [hheld]
    exact hreleasing p hp
  waiting p hp := by
    rcases hlocal.handover hmove (by simp) hp with ⟨hold, hcovered⟩ | hcommit
    · rw [hlocked]
      exact (h.waiting p hold).imp_right hcovered
    · cases hcommit with
      | sleeplk hpc hl => exact .inl (hlocked.trans hl)

/-- A step of one process along its own code that does not touch the sleep-lock. -/
theorem goto (h : Sleeplock s) (hlocal : Local s) (hmove : Move calls table initproc s s')
    {r : P} {j k : Pc P} (hj : s.pc r = j) (hpc : s'.pc = update s.pc r k)
    (hlocked : s'.locked = s.locked) (hlkpid : s'.lkpid = s.lkpid) (hheld : s'.held = s.held)
    (hpid : ∀ p, (s.slot p).state ≠ .unused → (s'.slot p).pid = (s.slot p).pid)
    (hleaving : k.leaving = j.leaving)
    (hreleasing : k.releasing = true → j.releasing = true) : Sleeplock s' := by
  subst hj
  refine h.frame hlocal hmove hlocked hlkpid hheld
    (fun p hp => hpid p (in_use hlocal (h.holder p hp).2.2)) (fun p hp => ?_) fun p hp => ?_
  · rw [hpc]
    by_cases hpr : p = r
    · subst hpr
      rw [update_self, hleaving]
      exact (h.holder p hp).2.2
    · rw [update_of_ne hpr]
      exact (h.holder p hp).2.2
  · rw [hpc] at hp
    by_cases hpr : p = r
    · subst hpr
      rw [update_self] at hp
      exact h.releasing p (hreleasing hp)
    · rw [update_of_ne hpr] at hp
      exact h.releasing p hp

/-- A slot update that keeps the pid. -/
theorem pid_update {x : P} {t : Slot P}
    (ht : (s.slot x).state ≠ .unused → t.pid = (s.slot x).pid) (p : P)
    (hp : (s.slot p).state ≠ .unused) :
    (update s.slot x t p).pid = (s.slot p).pid := by
  by_cases hpx : p = x
  · subst hpx
    rw [update_self, ht hp]
  · rw [update_of_ne hpx]

/-- A step by which a second process, not the holder, starts or ends. -/
theorem goto2 (h : Sleeplock s) (hlocal : Local s) (hmove : Move calls table initproc s s')
    {r q : P} {j k k' : Pc P} (hqr : q ≠ r) (hj : s.pc r = j)
    (hpc : s'.pc = update (update s.pc q k') r k) {t : Slot P}
    (hslot : s'.slot = update s.slot q t) (hlocked : s'.locked = s.locked)
    (hlkpid : s'.lkpid = s.lkpid) (hheld : s'.held = s.held) (hq : s.held q ≠ true)
    (hleaving : k.leaving = j.leaving) (hk : k.releasing = false) (hk' : k'.releasing = false) :
    Sleeplock s' := by
  subst hj
  have hne : ∀ p, s.held p = true → p ≠ q := by
    rintro p hp rfl
    exact hq hp
  refine h.frame hlocal hmove hlocked hlkpid hheld (fun p hp => ?_) (fun p hp => ?_) fun p hp => ?_
  · rw [hslot, update_of_ne (hne p hp)]
  · rw [hpc]
    by_cases hpr : p = r
    · rw [hpr, update_self, hleaving, ← hpr]
      exact (h.holder p hp).2.2
    · rw [update_of_ne hpr, update_of_ne (hne p hp)]
      exact (h.holder p hp).2.2
  · rw [hpc] at hp
    by_cases hpr : p = r
    · simp [hpr, hk] at hp
    · by_cases hpq : p = q
      · simp [hpq, hqr, hk'] at hp
      · exact h.releasing p (by simpa [hpr, hpq] using hp)

/-- A section of a running process keeps the invariant of the sleep-lock. -/
theorem turn (h : Sleeplock s) (hlocal : Local s) (hpids : Pids s) (htable : ∀ p, p ∈ table)
    {r : P} {k : Pc P} (hrun : (s.slot r).state = .running) (hpc : s.pc r = k)
    (hturn : Turn table initproc s r k s') : Sleeplock s' := by
  have hm : Move (fun _ => True) table initproc s s' := .turn hrun hpc hturn
  cases hturn with
  | acquiresleepTake hlocked =>
    have hnone : ∀ p, s.held p ≠ true := by
      intro p hp
      rw [(h.holder p hp).1] at hlocked
      cases hlocked
    refine ⟨fun p hp => ?_, fun _ => ⟨r, by simp⟩, fun p hp => ?_, fun p _ => .inl rfl⟩
    · have hpr : p = r := by
        by_contra hpr
        exact hnone p (by simpa [hpr] using hp)
      subst hpr
      exact ⟨rfl, rfl, by simp [Pc.leaving]⟩
    · by_cases hpr : p = r
      · subst hpr
        simp [Pc.releasing] at hp
      · exact absurd (h.releasing p (by simpa [hpr] using hp)) (hnone p)
  | releasesleep =>
    have hr : s.held r = true := h.releasing r (by simp [hpc, Pc.releasing])
    refine ⟨fun p hp => ?_, fun hl => by simp at hl, fun p hp => ?_, fun p _ => .inr ?_⟩
    · -- There is no other holder.
      have hpr : p ≠ r := by
        rintro rfl
        simp at hp
      exact absurd (h.unique hlocal hpids (by simpa [hpr] using hp) hr) hpr
    · have hpr : p ≠ r := by
        rintro rfl
        simp [Pc.releasing] at hp
      have hp : s.held p = true := h.releasing p (by simpa [hpr] using hp)
      exact absurd (h.unique hlocal hpids hp hr) hpr
    · exact ⟨r, table, .release .sleeplk .run, by simp, htable p⟩
  | @forkChild q rest hplock hunused =>
    have hqr : q ≠ r := slot_ne hunused hrun (by decide)
    exact h.goto2 hlocal hm hqr hpc rfl rfl rfl rfl rfl
      (fun hheld => in_use hlocal (h.holder q hheld).2.2 hunused) rfl rfl rfl
  | @waitReap q _ _ _ _ hplock hzombie =>
    have hqr : q ≠ r := slot_ne hzombie hrun (by decide)
    refine h.goto2 hlocal hm hqr hpc rfl rfl rfl rfl rfl (fun hheld => ?_) rfl rfl rfl
    have hleaving := (h.holder q hheld).2.2
    simp [hlocal.zombie hzombie hplock, Pc.leaving] at hleaving
  | wakeupSlot =>
    refine h.goto hlocal hm hpc rfl rfl rfl rfl (pid_update fun _ => ?_) rfl id
    unfold wakeSlot
    split_ifs <;> rfl
  | forkFail _ hunused =>
    exact h.goto hlocal hm hpc rfl rfl rfl rfl (pid_update fun hx => absurd hunused hx) rfl
      (by simp [Pc.releasing])
  | sleepPark | sleepTidy | killHit | forkParent | forkRun | exitFiles | exitReparentChild
  | exitZombie =>
    exact h.goto hlocal hm hpc rfl rfl rfl rfl (pid_update fun _ => rfl) rfl
      (by simp [Pc.releasing])
  | _ =>
    exact h.goto hlocal hm hpc rfl rfl rfl rfl (fun _ _ => rfl) rfl (by simp [Pc.releasing])

/-- Every move keeps the invariant of the sleep-lock. -/
theorem move (h : Sleeplock s) (hlocal : Local s) (hpids : Pids s) (htable : ∀ p, p ∈ table)
    (hmove : Move calls table initproc s s') : Sleeplock s' := by
  have hm := hmove
  cases hmove with
  | @call r c hrun hpc hadmitted =>
    refine h.frame hlocal hm rfl rfl rfl (fun _ _ => rfl) (fun p hp => ?_) fun p hp => ?_
    · by_cases hpr : p = r
      · subst hpr
        cases c <;> simp_all [Call.start, Call.admitted, Pc.leaving]
      · simpa [hpr] using (h.holder p hp).2.2
    · by_cases hpr : p = r
      · subst hpr
        cases c <;> simp_all [Call.start, Call.admitted, Pc.releasing]
      · exact h.releasing p (by simpa [hpr] using hp)
  | @dispatch r | @own r =>
    exact h.goto (r := r) hlocal hm rfl (update_eq_self ..).symm rfl rfl rfl
      (pid_update fun _ => rfl) rfl id
  | preempt => exact h.goto hlocal hm rfl rfl rfl rfl rfl (pid_update fun _ => rfl) rfl id
  | turn hrun hpc hturn => exact h.turn hlocal hpids htable hrun hpc hturn
  | exitRelease hpc | exitSched hpc =>
    exact h.goto hlocal hm hpc rfl rfl rfl rfl (fun _ _ => rfl) rfl id

/-- The sleep-lock is free at the start. -/
theorem boot : Sleeplock (State.boot initproc) := by
  refine ⟨by simp [State.boot], by simp [State.boot], fun p hp => ?_, fun p hp => ?_⟩
  · by_cases hpi : p = initproc <;> simp [State.boot, hpi, Pc.releasing] at hp
  · by_cases hpi : p = initproc <;>
      simp [State.boot, State.Waiting, hpi, Pc.sleepsOn, Slot.zero] at hp

end Sleeplock

/-- What a sleep-lock guarantees in a state of a run. -/
structure Excludes (s : State P) : Prop where
  /-- At most one process is between `acquiresleep` and `releasesleep`. -/
  exclusive : ∀ p q, s.held p = true → s.held q = true → p = q
  /-- The lock is taken then, and its `pid` is the pid of this process. -/
  pid : ∀ p, s.held p = true → s.locked = true ∧ s.lkpid = (s.slot p).pid
  /-- `holdingsleep` is true for this process and for no other. -/
  holding : ∀ p, (s.slot p).state ≠ .unused → (holdingsleep p s = true ↔ s.held p = true)
  /-- Nobody sleeps on a free lock whose inner lock is free. -/
  noLostWakeup : s.spin .sleeplk = none → s.locked = false →
    ∀ p, ¬ ((s.slot p).state = .sleeping ∧ (s.slot p).chan = some .sleeplk)

/-- Sleep-locks exclude and lose no wakeup, in every interleaving of the processes. -/
theorem sleeplock_excludes (htable : ∀ p, p ∈ table) {s : State P}
    (h : Reachable table initproc s) : Excludes s := by
  obtain ⟨hlocal, hpids, hsleep⟩ := h.induct (I := Sleeplock) Sleeplock.boot
    fun s s' hlocal hpids hI hmove => hI.move hlocal hpids htable hmove
  refine ⟨fun p q hp hq => hsleep.unique hlocal hpids hp hq, fun p hp => ?_,
    fun p hp => ⟨fun hholding => ?_, fun hheld => ?_⟩, fun hspin hlocked p hp => ?_⟩
  · exact ⟨(hsleep.holder p hp).1, (hsleep.holder p hp).2.1⟩
  · obtain ⟨hlocked, hpid⟩ : s.locked = true ∧ s.lkpid = (s.slot p).pid := by
      simpa [holdingsleep] using hholding
    obtain ⟨q, hq⟩ := hsleep.held hlocked
    obtain ⟨-, hpidq, hleave⟩ := hsleep.holder q hq
    have hpq : p = q := hpids.inj p q hp (Sleeplock.in_use hlocal hleave) (hpid.symm.trans hpidq)
    rw [hpq, hq]
  · obtain ⟨hlocked, hpid, -⟩ := hsleep.holder p hheld
    simp [holdingsleep, hlocked, hpid]
  · rcases hsleep.waiting p (.inl hp) with hl | ⟨q, rest, k, hq, -⟩
    · rw [hlocked] at hl
      cases hl
    · -- A process in the middle of a wakeup holds the inner lock.
      have hwf := hlocal.wf q
      rw [hq] at hwf
      have hholds := (hlocal.spin .sleeplk q).mpr (by rw [hq]; exact hwf.1 _ rfl)
      rw [hspin] at hholds
      cases hholds

/-- For the numerals of `Fin 3`, the table of processes in the runs below. -/
scoped instance threeProcs : @NeZero ℕ Zero.ofOfNat0 3 := ⟨by decide⟩

/-- The first process forks a second one and takes the sleep-lock; the second one finds it
taken and goes to sleep. -/
def contended : List (Act (Fin 3)) :=
  [.dispatch 0, .step 0, .call 0 (.kfork none)] ++ List.replicate 6 (.step 0) ++
    [.dispatch 1, .step 1, .call 0 .acquiresleep, .step 0, .step 0, .step 0,
      .call 1 .acquiresleep] ++ List.replicate 5 (.step 1)

/-- In this run the lock is held by the first process while the second one sleeps on it. -/
theorem contended_excludes :
    ∃ s, runs [0, 1, 2] 0 contended (State.boot 0) = some s ∧ s.held 0 = true ∧
      (s.slot 1).state = .sleeping ∧ (s.slot 1).chan = some .sleeplk ∧ Excludes s := by
  have hfacts : ((runs [0, 1, 2] 0 contended (State.boot 0)).map fun s =>
      (s.held 0, (s.slot 1).state, (s.slot 1).chan)) =
      some (true, .sleeping, some .sleeplk) := by
    decide +kernel
  obtain ⟨s, hs, heq⟩ := Option.map_eq_some_iff.mp hfacts
  simp only [Prod.mk.injEq] at heq
  exact ⟨s, hs, heq.1, heq.2.1, heq.2.2, sleeplock_excludes (by decide)
    (ReachableBy.boot.runs (fun _ _ _ => trivial) hs)⟩

end RiscvKernel.Sched
