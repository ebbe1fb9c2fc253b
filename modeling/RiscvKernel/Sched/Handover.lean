import RiscvKernel.Sched.Steps

/-!
# The hand-over of sleep and wakeup

A process counts as waiting on a channel from the moment it enters `sleep` with the lock of
the channel, before it has taken `p->lock` and become `SLEEPING`. A `wakeup` that scans the
table passes a slot only when its process no longer waits: the process is not before its
`release(lk)`, since the scan holds the same lock; it is not between `release(lk)` and
`sched`, since it holds `p->lock` then; and if it sleeps it is made runnable.
-/

namespace RiscvKernel.Sched

open Function

variable {P : Type} [DecidableEq P] {calls : Call → Prop} {table : List P} {initproc : P}

/-- A process sleeps on a channel or is on its way to. -/
def State.Waiting (s : State P) (c : Chan P) (p : P) : Prop :=
  (s.slot p).state = .sleeping ∧ (s.slot p).chan = some c ∨ (s.pc p).sleepsOn = some c

/-- Some process is waking up a channel and has still to visit the slot of `p`. -/
def State.Covered (s : State P) (c : Chan P) (p : P) : Prop :=
  ∃ q rest k, s.pc q = .wakeup (some c) rest k ∧ p ∈ rest

variable {s s' : State P} {c : Chan P} {p r : P}

/-- A step of one process that does not enter `sleep` on the channel, and that leaves to a
wakeup of the channel what it had still to visit. -/
theorem waiting_of_goto {j k : Pc P} (hj : s.pc r = j) (hpc : s'.pc = update s.pc r k)
    (hslot : ∀ q, (s'.slot q).state = .sleeping → (s'.slot q).chan = some c → s.Waiting c q)
    (hk : p = r → k.sleepsOn = some c → j.sleepsOn = some c)
    (hcovers : ∀ rest k', j = .wakeup (some c) rest k' → p ∈ rest →
      ∃ rest' k'', k = .wakeup (some c) rest' k'' ∧ p ∈ rest') (hw : s'.Waiting c p) :
    s.Waiting c p ∧ (s.Covered c p → s'.Covered c p) := by
  subst hj
  constructor
  · rcases hw with ⟨hst, hchan⟩ | hsleep
    · exact hslot p hst hchan
    · by_cases hp : p = r
      · subst hp
        rw [hpc, update_self] at hsleep
        exact .inr (hk rfl hsleep)
      · rw [hpc, update_of_ne hp] at hsleep
        exact .inr hsleep
  · rintro ⟨q, rest, k', hq, hmem⟩
    by_cases hqr : q = r
    · subst hqr
      obtain ⟨rest', k'', hk', hmem'⟩ := hcovers rest k' hq hmem
      exact ⟨q, rest', k'', by rw [hpc, update_self, hk'], hmem'⟩
    · exact ⟨q, rest, k', by rw [hpc, update_of_ne hqr, hq], hmem⟩

/-- Waking a slot makes nobody sleep. -/
theorem wakeSlot_sleeping {d : Option (Chan P)} {t : Slot P}
    (h : (wakeSlot d t).state = .sleeping) : wakeSlot d t = t := by
  unfold wakeSlot at h ⊢
  split_ifs at h ⊢ with hboth
  rfl

omit [DecidableEq P] in
/-- A plain point that holds no lock does not lead to sleep. -/
theorem Pc.sleepsOn_none {k : Pc P} (hholds : k.holds = none) (hplain : k.plain = true) :
    k.sleepsOn = none := by
  cases k <;> simp_all [Pc.holds, Pc.plain, Pc.sleepsOn]

/-- The sleepers after the slot of one process has changed. -/
theorem waiting_update {x : P} {t : Slot P}
    (ht : t.state = .sleeping → t.chan = some c → s.Waiting c x) (q : P)
    (hst : (update s.slot x t q).state = .sleeping)
    (hchan : (update s.slot x t q).chan = some c) : s.Waiting c q := by
  by_cases hq : q = x
  · subst hq
    rw [update_self] at hst hchan
    exact ht hst hchan
  · rw [update_of_ne hq] at hst hchan
    exact .inl ⟨hst, hchan⟩

/-- The step by which a process enters `sleep` on the sleep-lock or in `kwait`. -/
inductive Commits (table : List P) (s : State P) : Chan P → P → State P → Prop
  | sleeplk {p : P} (hpc : s.pc p = .acquiresleep) (hlocked : s.locked = true) :
      Commits table s .sleeplk p (s.goto p (.sleepLock .sleeplk .sleeplk .acquiresleep))
  | wait {p : P} {addr : Option Bool} (hpc : s.pc p = .wait addr [] true) :
      Commits table s (.proc p) p
        (s.goto p (.sleepLock (.proc p) .wait (.wait addr table false)))

/-- The visit of a wakeup to a slot leaves its process not waiting. -/
theorem Local.not_waiting_woken (h : Local s) {q : P} {rest : List P} {k : Pc P}
    (hpc : s.pc r = .wakeup (some c) (q :: rest) k) (hq : q ≠ r) (hplock : s.plock q = false) :
    ¬ ((s.setSlot q (wakeSlot (some c) (s.slot q))).goto r (.wakeup (some c) rest k)).Waiting
      c q := by
  rintro (⟨hst, hchan⟩ | hsleep)
  · -- A sleeper on the channel has just been made runnable.
    have hslot : ((s.setSlot q (wakeSlot (some c) (s.slot q))).goto r
        (.wakeup (some c) rest k)).slot q = wakeSlot (some c) (s.slot q) := by simp
    rw [hslot] at hst hchan
    have hsame := wakeSlot_sleeping hst
    rw [hsame] at hst hchan
    rw [wakeSlot, if_pos ⟨hst, hchan⟩] at hsame
    rw [← hsame] at hst
    cases hst
  · have hsleep : (s.pc q).sleepsOn = some c := by simpa [hq] using hsleep
    have hfits := h.fits q
    have hwf := h.wf q
    have hwr := h.wf r
    rw [hpc] at hwr
    have hholder : (s.pc r).holds = some c.lock := by rw [hpc]; exact hwr.1 c rfl
    cases hpcq : s.pc q with
    | sleepLock c' l k' =>
      -- It would hold the lock of the channel, as the waker does.
      rw [hpcq] at hsleep hwf
      cases hsleep
      have hspin := (h.spin c.lock q).mpr (by rw [hpcq]; exact congrArg some hwf.1)
      rw [(h.spin c.lock r).mpr hholder] at hspin
      exact hq (Option.some.inj hspin).symm
    | sleepRelease c' l k' =>
      rw [hpcq, hplock] at hfits
      exact absurd hfits.2 (by simp)
    | sleepPark c' l k' =>
      rw [hpcq, hplock] at hfits
      exact absurd hfits.2 (by simp)
    | _ => simp [hpcq, Pc.sleepsOn] at hsleep

/-- A step by which a second process starts or ends. -/
theorem waiting_of_goto2 {q : P} {j j' k k' : Pc P} (hqr : q ≠ r) (hj : s.pc r = j)
    (hj' : s.pc q = j') (hpc : s'.pc = update (update s.pc q k') r k)
    (hslot : ∀ q, (s'.slot q).state = .sleeping → (s'.slot q).chan = some c → s.Waiting c q)
    (hk : k.sleepsOn = none) (hk' : k'.sleepsOn = none)
    (hr : ∀ rest k', j ≠ .wakeup (some c) rest k')
    (hq : ∀ rest k', j' ≠ .wakeup (some c) rest k') (hw : s'.Waiting c p) :
    s.Waiting c p ∧ (s.Covered c p → s'.Covered c p) := by
  let t : State P := { s with pc := update s.pc q k', slot := s'.slot }
  obtain ⟨hwt, hct⟩ := waiting_of_goto (s := t) (r := r)
    ((update_of_ne (Ne.symm hqr) _ _).trans hj) hpc
    (fun x hst hchan => .inl ⟨hst, hchan⟩) (by simp [hk]) (fun rest k' h => absurd h (hr rest k'))
    hw
  have hfirst : s.Waiting c p ∧ (s.Covered c p → t.Covered c p) :=
    waiting_of_goto hj' rfl hslot (by simp [hk']) (fun rest k' h => absurd h (hq rest k')) hwt
  exact ⟨hfirst.1, fun hcov => hct (hfirst.2 hcov)⟩

/-- A section of a running process loses no wakeup. -/
theorem Local.handover_turn (h : Local s) (hrun : (s.slot r).state = .running) {k : Pc P}
    (hpc : s.pc r = k) (hturn : Turn table initproc s r k s') (hc : ∀ n, c ≠ .cond n)
    (hw : s'.Waiting c p) :
    (s.Waiting c p ∧ (s.Covered c p → s'.Covered c p)) ∨ Commits table s c p s' := by
  have hsame : ∀ q, (s.slot q).state = .sleeping → (s.slot q).chan = some c →
      s.Waiting c q := fun q hst hchan => .inl ⟨hst, hchan⟩
  have hwf := h.wf r
  rw [hpc] at hwf
  cases hturn with
  | acquire =>
    refine .inl (waiting_of_goto hpc rfl hsame (fun _ hk => ?_) (by simp) hw)
    obtain ⟨n, hn⟩ := hwf.2.1 c hk
    exact absurd hn (hc n)
  | release | yielded =>
    exact .inl (waiting_of_goto hpc rfl hsame (by simp [Pc.sleepsOn_none hwf.1 hwf.2.1]) (by simp)
      hw)
  | sleepPark =>
    refine .inl (waiting_of_goto hpc rfl (waiting_update fun _ hchan => .inr ?_)
      (by simp [Pc.sleepsOn]) (by simp) hw)
    rw [hpc]
    exact hchan
  | sleepTidy | forkRun =>
    exact .inl (waiting_of_goto hpc rfl (waiting_update (by simp)) (by simp [Pc.sleepsOn])
      (by simp) hw)
  | wakeupEnd =>
    refine .inl (waiting_of_goto hpc rfl hsame (by simp [hwf.2.1]) (fun rest k' hk hmem => ?_) hw)
    cases hk
    cases hmem
  | @wakeupSelf d rest k =>
    have hpr : p ≠ r := by
      rintro rfl
      rcases hw with ⟨hst, -⟩ | hsleep
      · rw [State.goto, hrun] at hst
        cases hst
      · simp [Pc.sleepsOn] at hsleep
    refine .inl (waiting_of_goto hpc rfl hsame (by simp [Pc.sleepsOn]) (fun _ _ hk hmem => ?_) hw)
    cases hk
    exact ⟨rest, k, rfl, (List.mem_cons.mp hmem).resolve_left hpr⟩
  | @wakeupSlot q d rest k hq hplock =>
    have hpq : d = some c → p ≠ q := by
      rintro rfl rfl
      exact h.not_waiting_woken hpc hq hplock hw
    refine .inl (waiting_of_goto hpc rfl (waiting_update fun hst hchan => ?_)
      (by simp [Pc.sleepsOn]) (fun _ _ hk hmem => ?_) hw)
    · have hslot := wakeSlot_sleeping hst
      rw [hslot] at hst hchan
      exact .inl ⟨hst, hchan⟩
    · cases hk
      exact ⟨rest, k, rfl, (List.mem_cons.mp hmem).resolve_left (hpq rfl)⟩
  | killHit =>
    refine .inl (waiting_of_goto hpc rfl (waiting_update fun hst hchan => ?_)
      (by simp [Pc.sleepsOn]) (by simp) hw)
    simp only [killSlot] at hst
    split_ifs at hst with hs
    exact absurd hst hs
  | acquiresleepWait hlocked =>
    by_cases hcr : c = .sleeplk ∧ p = r
    · obtain ⟨rfl, rfl⟩ := hcr
      exact .inr (.sleeplk hpc hlocked)
    · exact .inl (waiting_of_goto hpc rfl hsame
        (fun hp hk => absurd ⟨(Option.some.inj hk).symm, hp⟩ hcr) (by simp) hw)
  | waitSleep =>
    by_cases hcr : c = .proc r ∧ p = r
    · obtain ⟨rfl, rfl⟩ := hcr
      exact .inr (.wait hpc)
    · exact .inl (waiting_of_goto hpc rfl hsame
        (fun hp hk => absurd ⟨(Option.some.inj hk).symm, hp⟩ hcr) (by simp) hw)
  | forkFail =>
    exact .inl (waiting_of_goto hpc rfl (waiting_update (by simp [Slot.freeproc]))
      (by simp [Pc.sleepsOn]) (by simp) hw)
  | @forkChild q rest hplock hunused =>
    have hqr : q ≠ r := slot_ne hunused hrun (by decide)
    refine .inl (waiting_of_goto2 hqr hpc rfl rfl (waiting_update (by simp [forkSlot])) rfl rfl
      (by simp) (fun rest k hpcq => ?_) hw)
    have hfits := h.fits q
    rw [hpcq, hunused] at hfits
    exact absurd hfits.1 (by simp)
  | forkParent | exitFiles | exitReparentChild =>
    exact .inl (waiting_of_goto hpc rfl (waiting_update fun hst hchan => .inl ⟨hst, hchan⟩)
      (by simp [Pc.sleepsOn]) (by simp) hw)
  | exitZombie =>
    exact .inl (waiting_of_goto (k := .exitRelease) hpc rfl (waiting_update (by simp))
      (by simp [Pc.sleepsOn]) (by simp) hw)
  | @waitReap q _ _ _ _ hplock hzombie =>
    have hqr : q ≠ r := slot_ne hzombie hrun (by decide)
    exact .inl (waiting_of_goto2 hqr hpc (h.zombie hzombie hplock) rfl
      (waiting_update (by simp [Slot.freeproc])) rfl rfl (by simp) (by simp) hw)
  | sleepLock | sleepRelease | acquiresleepTake | releasesleep | killEnd | killNext | holdingsleep
  | forkEnd | forkNext | forkret | exitReparentEnd | exitReparentNext | waitNone | waitFault
  | waitNext =>
    exact .inl (waiting_of_goto hpc rfl hsame (by simp [Pc.sleepsOn]) (by simp) hw)

/-- **No wakeup is lost.** A process that waits after a step either waited before, and a
wakeup that had still to visit it has still to, or has just entered `sleep`. -/
theorem Local.handover (h : Local s) (hmove : Move calls table initproc s s')
    (hc : ∀ n, c ≠ .cond n) (hw : s'.Waiting c p) :
    (s.Waiting c p ∧ (s.Covered c p → s'.Covered c p)) ∨ Commits table s c p s' := by
  have hsame : ∀ q, (s.slot q).state = .sleeping → (s.slot q).chan = some c →
      s.Waiting c q := fun q hst hchan => .inl ⟨hst, hchan⟩
  cases hmove with
  | @call r call hrun hpc =>
    refine .inl (waiting_of_goto hpc rfl hsame ?_ (by simp) hw)
    cases call <;> simp [Call.start, Pc.sleepsOn]
  | @dispatch r hst hplock =>
    refine .inl (waiting_of_goto (r := r) rfl (update_eq_self ..).symm
      (waiting_update (by simp)) (fun _ => id) (fun rest k hpc _ => ?_) hw)
    have hfits := h.fits r
    rw [hpc, hst] at hfits
    exact absurd hfits.1 (by simp)
  | @preempt r hrun hholds hplock =>
    refine .inl (waiting_of_goto rfl rfl (waiting_update (by simp)) (by simp [Pc.sleepsOn])
      (fun rest k hpc _ => ?_) hw)
    have hwf := h.wf r
    rw [hpc] at hwf hholds
    rw [Pc.holds, hwf.1 c rfl] at hholds
    cases hholds
  | own hrun hpc =>
    exact .inl (waiting_of_goto hpc (update_eq_self ..).symm
      (waiting_update fun hst hchan => .inl ⟨hst, hchan⟩) (by simp [hpc]) (by simp) hw)
  | turn hrun hpc hturn => exact h.handover_turn hrun hpc hturn hc hw
  | exitRelease hpc | exitSched hpc =>
    exact .inl (waiting_of_goto hpc rfl hsame (by simp [Pc.sleepsOn]) (by simp) hw)

end RiscvKernel.Sched
