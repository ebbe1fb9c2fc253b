import Mathlib.Data.List.Nodup
import RiscvKernel.Sched.Tree

/-!
# No exit is lost

A parent that enters `sleep` in `kwait` has scanned all its children under `wait_lock` and
found no zombie. A child becomes a zombie under the same lock, after a `wakeup` of its
parent has passed over the whole table; and `reparent` follows each change of a parent by a
`wakeup` of `initproc`. So while `wait_lock` is free no parent of a zombie sleeps. The
history then shows what each `kwait` has reaped.
-/

namespace RiscvKernel.Sched

open Function
open List (map_append map_cons map_nil mem_append mem_cons mem_map mem_singleton)

variable {P : Type} [DecidableEq P] {calls : Call → Prop} {table : List P} {initproc : P}

/-- The process is about to become a zombie, its parent notified. -/
def Pc.late : Pc P → Bool
  | .exitZombie _ => true
  | .wakeup _ _ k => k.late
  | _ => false

/-- A scan of `kwait` starts with the whole table. -/
def Pc.Fresh (table : List P) : Pc P → Prop
  | .acquire _ k | .sleepLock _ _ k | .sleepRelease _ _ k | .sleepPark _ _ k | .sleepTidy _ k =>
    k.late = false ∧ (∀ addr rest havekids, k = .wait addr rest havekids → rest = table) ∧
      k.Fresh table
  | .release _ k | .yielded k => k.late = false ∧ k.Fresh table
  | .wakeup _ _ k => (∀ addr rest havekids, k ≠ .wait addr rest havekids) ∧
    (∀ c rest k', k ≠ .wakeup c rest k') ∧ k.Fresh table
  | _ => True

/-- A zombie and its parent. -/
def State.Zombie (s : State P) (p q : P) : Prop :=
  (s.slot q).parent = some p ∧ (s.slot q).state = .zombie

/-- What a parent in `kwait` and a child in `kexit` know about each other. -/
structure Wakes (table : List P) (s : State P) : Prop where
  fresh : ∀ p, (s.pc p).Fresh table
  /-- The zombie children of a process that scans are ahead of it. -/
  scan : ∀ p addr rest havekids, s.pc p = .wait addr rest havekids →
    ∀ q, s.Zombie p q → q ∈ rest
  /-- An exiting process wakes its parent. -/
  chan : ∀ e c rest status, s.pc e = .wakeup c rest (.exitZombie status) →
    c = (s.slot e).parent.map .proc
  /-- The parent of an exiting process waits only as long as the wakeup is to come. -/
  notify : ∀ e p c rest status, s.pc e = .wakeup c rest (.exitZombie status) →
    (s.slot e).parent = some p → s.Waiting (.proc p) p → p ∈ rest
  notified : ∀ e p status, s.pc e = .exitZombie status → (s.slot e).parent = some p →
    ¬ s.Waiting (.proc p) p
  /-- The parent of a zombie waits only as long as a wakeup is to come. -/
  zombies : ∀ p q, s.Waiting (.proc p) p → s.Zombie p q → s.Covered (.proc p) p

variable {s s' : State P} {r : P}

omit [DecidableEq P] in
/-- A process that is late holds `wait_lock`. -/
theorem Pc.holds_of_late : ∀ {k : Pc P}, k.late = true → k.holds = some .wait
  | .exitZombie _, _ => rfl
  | .wakeup _ _ k, hk => Pc.holds_of_late (k := k) hk

omit [DecidableEq P] in
/-- While a process holds `wait_lock`, no other process is at a point that holds it. -/
theorem Local.holds_unique (hlocal : Local s) {e : P} (he : (s.pc e).holds = some .wait)
    (hr : (s.pc r).holds = some .wait) : e = r := by
  have hspin := (hlocal.spin .wait e).mpr he
  rw [(hlocal.spin .wait r).mpr hr] at hspin
  exact (Option.some.inj hspin).symm

/-- Nobody enters `sleep` in `kwait` while another process holds `wait_lock`. -/
theorem Local.handover_wait (hlocal : Local s) (hmove : Move calls table initproc s s')
    (hr : (s.pc r).holds = some .wait) (hnot : ∀ addr, s.pc r ≠ .wait addr [] true) {p : P}
    (hw : s'.Waiting (.proc p) p) :
    s.Waiting (.proc p) p ∧ (s.Covered (.proc p) p → s'.Covered (.proc p) p) := by
  rcases hlocal.handover hmove (by simp) hw with hold | hcommit
  · exact hold
  · cases hcommit with
    | @wait _ addr hpc =>
      obtain rfl := hlocal.holds_unique (by rw [hpc]; rfl) hr
      exact absurd hpc (hnot addr)

namespace Wakes

/-- The steps of a process that make no zombie: what the process itself has to know at its
new program point is left to show. -/
theorem frame (h : Wakes table s) (hlocal : Local s) (hmove : Move calls table initproc s s')
    (hpc : ∀ q, q ≠ r → s'.pc q = s.pc q ∨ s'.pc q = .forkret ∨ s'.pc q = .unused)
    (hparent : ∀ q, (s.slot q).state ≠ .unused → (s.pc r).holds ≠ some .wait →
      (s'.slot q).parent = (s.slot q).parent)
    (hzombie : ∀ p q, s'.Zombie p q → s.Zombie p q)
    (hfresh : (s'.pc r).Fresh table)
    (hscan : ∀ addr rest havekids, s'.pc r = .wait addr rest havekids →
      ∀ q, s.Zombie r q → q ∈ rest)
    (hchan : ∀ c rest status, s'.pc r = .wakeup c rest (.exitZombie status) →
      c = (s'.slot r).parent.map .proc)
    (hnotify : ∀ p c rest status, s'.pc r = .wakeup c rest (.exitZombie status) →
      (s'.slot r).parent = some p → s'.Waiting (.proc p) p → p ∈ rest)
    (hnotified : ∀ p status, s'.pc r = .exitZombie status → (s'.slot r).parent = some p →
      ¬ s'.Waiting (.proc p) p) : Wakes table s' := by
  have hother : ∀ e, e ≠ r → (s.pc e).holds = some .wait → (s.pc r).holds ≠ some .wait :=
    fun e her he hr => her (hlocal.holds_unique he hr)
  have huse : ∀ e k, s.pc e = k → k.plain = true → (s.slot e).state ≠ .unused := by
    intro e k he hk
    rw [(hlocal.plain he hk).1]
    simp
  refine ⟨fun p => ?_, fun p addr rest havekids hp q hq => ?_, fun e c rest status he => ?_,
    fun e p c rest status he hp hw => ?_, fun e p status he hp hw => ?_, fun p q hw hq => ?_⟩
  · by_cases hpr : p = r
    · rw [hpr]; exact hfresh
    · rcases hpc p hpr with heq | heq | heq
      · rw [heq]; exact h.fresh p
      · rw [heq]; trivial
      · rw [heq]; trivial
  · by_cases hpr : p = r
    · subst hpr
      exact hscan addr rest havekids hp q (hzombie p q hq)
    · rcases hpc p hpr with heq | heq | heq <;> rw [heq] at hp
      · exact h.scan p addr rest havekids hp q (hzombie p q hq)
      · cases hp
      · cases hp
  · by_cases her : e = r
    · subst her; exact hchan c rest status he
    · rcases hpc e her with heq | heq | heq <;> rw [heq] at he
      · rw [hparent e (huse e _ he rfl) (hother e her (by rw [he]; rfl))]
        exact h.chan e c rest status he
      · cases he
      · cases he
  · by_cases her : e = r
    · subst her; exact hnotify p c rest status he hp hw
    · rcases hpc e her with heq | heq | heq <;> rw [heq] at he
      · rw [hparent e (huse e _ he rfl) (hother e her (by rw [he]; rfl))] at hp
        exact h.notify e p c rest status he hp
          (hlocal.handover_wait hmove (by rw [he]; rfl) (by simp [he]) hw).1
      · cases he
      · cases he
  · by_cases her : e = r
    · subst her; exact hnotified p status he hp hw
    · rcases hpc e her with heq | heq | heq <;> rw [heq] at he
      · rw [hparent e (huse e _ he rfl) (hother e her (by rw [he]; rfl))] at hp
        exact h.notified e p status he hp
          (hlocal.handover_wait hmove (by rw [he]; rfl) (by simp [he]) hw).1
      · cases he
      · cases he
  · have hq := hzombie p q hq
    rcases hlocal.handover hmove (by simp) hw with ⟨hold, hcovered⟩ | hcommit
    · exact hcovered (h.zombies p q hold hq)
    · cases hcommit with
      | @wait _ addr hpcp =>
        -- The scan had come to its end without a zombie.
        exact absurd (h.scan p addr [] true hpcp q hq) (by simp)

/-- A slot update that makes no zombie and keeps the parent of every zombie. -/
theorem zombie_update {x : P} {t : Slot P} (hslot : s'.slot = update s.slot x t)
    (ht : ∀ p, t.parent = some p → t.state = .zombie → s.Zombie p x) (p q : P)
    (hq : s'.Zombie p q) : s.Zombie p q := by
  unfold State.Zombie at hq
  rw [hslot] at hq
  by_cases hqx : q = x
  · subst hqx
    rw [update_self] at hq
    exact ht p hq.1 hq.2
  · rwa [update_of_ne hqx] at hq

/-- A step along the code of one process at whose new point there is nothing to know. -/
theorem goto (h : Wakes table s) (hlocal : Local s) (hmove : Move calls table initproc s s')
    {k : Pc P} (hpc : s'.pc = update s.pc r k)
    (hparent : ∀ q, (s.slot q).state ≠ .unused → (s.pc r).holds ≠ some .wait →
      (s'.slot q).parent = (s.slot q).parent)
    (hzombie : ∀ p q, s'.Zombie p q → s.Zombie p q) (hfresh : k.Fresh table)
    (hlate : k.late = false)
    (hscan : ∀ addr rest havekids, k = .wait addr rest havekids →
      ∀ q, s.Zombie r q → q ∈ rest) : Wakes table s' := by
  have hself : s'.pc r = k := by rw [hpc, update_self]
  refine h.frame hlocal hmove (fun q hq => .inl (by rw [hpc, update_of_ne hq])) hparent
    hzombie (by rw [hself]; exact hfresh) (by rw [hself]; exact hscan) ?_ ?_ ?_
  · rintro c rest status hr
    rw [hself] at hr
    rw [hr] at hlate
    cases hlate
  · rintro p c rest status hr
    rw [hself] at hr
    rw [hr] at hlate
    cases hlate
  · rintro p status hr
    rw [hself] at hr
    rw [hr] at hlate
    cases hlate

omit [DecidableEq P] in
/-- A running process in a `wakeup` does not wait. -/
theorem not_waiting_running {c : Chan P} (hrun : (s.slot r).state = .running)
    (hsleeps : (s.pc r).sleepsOn = none) : ¬ s.Waiting c r := by
  rintro (⟨hst, -⟩ | hsleep)
  · rw [hrun] at hst
    cases hst
  · rw [hsleeps] at hsleep
    cases hsleep

/-- The end of a wakeup: a process that exits has notified its parent. -/
theorem wakeupEnd (h : Wakes table s) (hlocal : Local s) {c : Option (Chan P)} {k : Pc P}
    (hpc : s.pc r = .wakeup c [] k) (hmove : Move calls table initproc s (s.goto r k)) :
    Wakes table (s.goto r k) := by
  have hfresh := h.fresh r
  have hwf := hlocal.wf r
  rw [hpc] at hfresh hwf
  have hself : (s.goto r k).pc r = k := by simp
  refine h.frame (r := r) hlocal hmove (fun q hq => .inl (by simp [hq])) (fun _ _ _ => rfl)
    (fun _ _ => id) (by rw [hself]; exact hfresh.2.2)
    (fun addr rest havekids hr => absurd (hself.symm.trans hr) (hfresh.1 addr rest havekids))
    (fun c' rest status hr => absurd (hself.symm.trans hr) (hfresh.2.1 _ _ _))
    (fun p c' rest status hr => absurd (hself.symm.trans hr) (hfresh.2.1 _ _ _))
    fun p status hr hp hw => ?_
  have hk : k = .exitZombie status := hself.symm.trans hr
  subst hk
  have hold : s.Waiting (.proc p) p := by
    rcases hw with hw | hsleep
    · exact .inl hw
    · by_cases hpr : p = r
      · subst hpr
        rw [hself] at hsleep
        cases hsleep
      · exact .inr (by simpa [hpr] using hsleep)
  exact absurd (h.notify r p c [] status hpc hp hold) (by simp)

/-- A visit of a wakeup: the parent of an exiting process is still ahead, or it does not
wait any more. -/
theorem wakeupNext (h : Wakes table s) (hlocal : Local s) {q : P} {c : Option (Chan P)}
    {rest : List P} {k : Pc P} (hpc : s.pc r = .wakeup c (q :: rest) k)
    (hmove : Move calls table initproc s s')
    (hpc' : s'.pc = update s.pc r (.wakeup c rest k))
    (hparent : ∀ x, (s'.slot x).parent = (s.slot x).parent)
    (hzombie : ∀ p x, s'.Zombie p x → s.Zombie p x)
    (hq : c = some (.proc q) → ¬ s'.Waiting (.proc q) q) : Wakes table s' := by
  have hfresh := h.fresh r
  rw [hpc] at hfresh
  have hself : s'.pc r = .wakeup c rest k := by rw [hpc', update_self]
  refine h.frame (r := r) hlocal hmove (fun x hx => .inl (by rw [hpc', update_of_ne hx]))
    (fun x _ _ => hparent x) hzombie (by rw [hself]; exact hfresh)
    (fun addr rest' havekids hr => by rw [hself] at hr; cases hr) (fun c' rest' status hr => ?_)
    (fun p c' rest' status hr hp hw => ?_) (fun p status hr => by rw [hself] at hr; cases hr)
  · rw [hself] at hr
    cases hr
    rw [hparent]
    exact h.chan r c (q :: rest) status hpc
  · rw [hself] at hr
    cases hr
    rw [hparent] at hp
    have hchan := h.chan r c (q :: rest) status hpc
    rw [hp] at hchan
    have hold : s.Waiting (.proc p) p :=
      (hlocal.handover_wait hmove (by rw [hpc]; rfl) (by simp [hpc]) hw).1
    rcases mem_cons.mp (h.notify r p c (q :: rest) status hpc hp hold) with heq | hmem
    · subst heq
      exact absurd hw (hq hchan)
    · exact hmem

/-- A step of the holder of `wait_lock` to a point at which it neither scans nor is late:
only the zombies are left to look at. -/
theorem holder (h : Wakes table s) (hlocal : Local s) {k : Pc P}
    (hpc : s'.pc = update s.pc r k) (hholds : (s.pc r).holds = some .wait)
    (hfresh : k.Fresh table) (hwait : ∀ addr rest havekids, k ≠ .wait addr rest havekids)
    (hlate : k.late = false)
    (hzombies : ∀ p q, s'.Waiting (.proc p) p → s'.Zombie p q → s'.Covered (.proc p) p) :
    Wakes table s' := by
  have hself : s'.pc r = k := by rw [hpc, update_self]
  have hcase : ∀ e, e ≠ r → s'.pc e = s.pc e := fun e he => by rw [hpc, update_of_ne he]
  have hnot : ∀ e k', s'.pc e = k' → k'.holds = some .wait → e = r ∧ k' = k := by
    intro e k' he hk'
    by_cases her : e = r
    · exact ⟨her, by rw [← he, her, hself]⟩
    · rw [hcase e her] at he
      exact absurd (hlocal.holds_unique (by rw [he]; exact hk') hholds) her
  refine ⟨fun p => ?_, fun p addr rest havekids hp => ?_, fun e c rest status he => ?_,
    fun e p c rest status he => ?_, fun e p status he => ?_, hzombies⟩
  · by_cases hpr : p = r
    · rw [hpr, hself]; exact hfresh
    · rw [hcase p hpr]; exact h.fresh p
  · exact absurd (hnot p _ hp rfl).2.symm (hwait addr rest havekids)
  · rw [← (hnot e _ he rfl).2] at hlate
    cases hlate
  · rw [← (hnot e _ he rfl).2] at hlate
    cases hlate
  · rw [← (hnot e _ he rfl).2] at hlate
    cases hlate

/-- A step of another process or of a process that does not hold `wait_lock` keeps the
parent of every process. -/
theorem parent_same {x : P} {t : Slot P} (ht : t.parent = (s.slot x).parent) (q : P)
    (_ : (s.slot q).state ≠ .unused) (_ : (s.pc r).holds ≠ some .wait) :
    (update s.slot x t q).parent = (s.slot q).parent := Tree.parent_update ht q

/-- A section of a running process keeps what parents and children know. -/
theorem turn (h : Wakes table s) (hlocal : Local s) (htable : ∀ p, p ∈ table) {k : Pc P}
    (hrun : (s.slot r).state = .running) (hpc : s.pc r = k)
    (hturn : Turn table initproc s r k s') : Wakes table s' := by
  have hm : Move (fun _ => True) table initproc s s' := .turn hrun hpc hturn
  have hsame : ∀ p q, s.Zombie p q → s.Zombie p q := fun _ _ => id
  have hfresh := h.fresh r
  have hwf := hlocal.wf r
  rw [hpc] at hfresh hwf
  cases hturn with
  | acquire =>
    exact h.goto hlocal hm rfl (fun _ _ _ => rfl) hsame hfresh.2.2 hfresh.1
      fun addr rest havekids hk q _ => hfresh.2.1 addr rest havekids hk ▸ htable q
  | release | yielded =>
    refine h.goto hlocal hm rfl (fun _ _ _ => rfl) hsame hfresh.2 hfresh.1 ?_
    rintro addr rest havekids rfl
    cases hwf.1
  | sleepPark =>
    exact h.goto hlocal hm rfl (parent_same rfl) (zombie_update rfl (by simp)) hfresh rfl (by simp)
  | sleepTidy =>
    exact h.goto hlocal hm rfl (parent_same rfl) (zombie_update rfl fun _ => .intro) hfresh rfl
      (by simp)
  | wakeupEnd => exact h.wakeupEnd hlocal hpc hm
  | wakeupSelf =>
    refine h.wakeupNext hlocal hpc hm rfl (fun _ => rfl) hsame fun _ => ?_
    exact not_waiting_running hrun (by simp [Pc.sleepsOn])
  | wakeupSlot hq hplock =>
    refine h.wakeupNext hlocal hpc hm rfl (Tree.parent_update ?_) (zombie_update rfl ?_) ?_
    · unfold wakeSlot
      split_ifs <;> rfl
    · unfold wakeSlot
      split_ifs
      · simp
      · exact fun _ => .intro
    · rintro rfl
      exact hlocal.not_waiting_woken hpc hq hplock
  | @killHit q =>
    refine h.goto hlocal hm rfl (parent_same rfl) (zombie_update rfl ?_) trivial rfl (by simp)
    intro p hparent hst
    refine ⟨hparent, ?_⟩
    unfold killSlot at hst
    by_cases hsleep : (s.slot q).state = .sleeping <;> simp_all
  | @forkFail q _ _ _ hunused =>
    refine h.goto hlocal hm rfl (fun x hx _ => ?_) (zombie_update rfl (by simp [Slot.freeproc]))
      trivial rfl (by simp)
    have hxq : x ≠ q := by
      rintro rfl
      exact hx hunused
    simp [hxq]
  | @forkChild q =>
    refine h.frame (r := r) hlocal hm (fun x hx => ?_) (parent_same rfl)
      (zombie_update rfl (by simp [forkSlot])) ?_ ?_ ?_ ?_ ?_
    · by_cases hxq : x = q
      · exact .inr (.inl (by rw [← hxq]; simp [hx]))
      · exact .inl (by simp [hx, hxq])
    all_goals simp [Pc.Fresh, Pc.late]
  | @forkParent np =>
    have hused := hlocal.child r np (by rw [hpc]; rfl)
    exact h.goto hlocal hm rfl (fun x _ hnot => absurd (by rw [hpc]; rfl) hnot)
      (zombie_update rfl (by simp [hused])) ⟨rfl, trivial⟩ rfl (by simp)
  | forkRun =>
    exact h.goto hlocal hm rfl (parent_same rfl) (zombie_update rfl (by simp)) trivial rfl (by simp)
  | exitFiles =>
    exact h.goto hlocal hm rfl (parent_same rfl) (zombie_update rfl fun _ => .intro)
      (by simp [Pc.Fresh, Pc.late]) rfl (by simp)
  | exitReparentEnd =>
    refine h.frame (r := r) hlocal hm (fun x hx => .inl (by simp [hx])) (fun _ _ _ => rfl) hsame
      (by simp [Pc.Fresh]) (by simp) ?_ (fun p c rest status' hr _ _ => ?_) (by simp)
    · intro c rest status' hr
      simp only [State.goto, update_self, Pc.wakeup.injEq] at hr
      exact hr.1.symm
    · simp only [State.goto, update_self, Pc.wakeup.injEq] at hr
      exact hr.2.1 ▸ htable p
  | @exitReparentChild q status rest hparent =>
    refine h.holder (r := r) hlocal rfl (by rw [hpc]; rfl) (by simp [Pc.Fresh]) (by simp) rfl
      fun p x hw hx => ?_
    by_cases hxq : x = q
    · -- The orphan itself: `initproc` is woken next.
      subst hxq
      have hp : initproc = p := by simpa [State.Zombie] using hx.1
      subst hp
      exact ⟨r, table, .exitReparent status rest, by simp, htable _⟩
    · obtain ⟨hold, hcovered⟩ := hlocal.handover_wait hm (by rw [hpc]; rfl) (by simp [hpc]) hw
      exact hcovered (h.zombies p x hold (by simpa [State.Zombie, hxq] using hx))
  | @exitZombie status =>
    refine h.holder (r := r) (k := .exitRelease) hlocal rfl (by rw [hpc]; rfl) trivial (by simp)
      rfl fun p x hw hx => ?_
    obtain ⟨hold, hcovered⟩ := hlocal.handover_wait hm (by rw [hpc]; rfl) (by simp [hpc]) hw
    by_cases hxr : x = r
    · subst hxr
      have hp : (s.slot x).parent = some p := by simpa [State.Zombie] using hx.1
      exact absurd hold (h.notified x p status hpc hp)
    · exact hcovered (h.zombies p x hold (by simpa [State.Zombie, hxr] using hx))
  | @waitReap q =>
    refine h.frame (r := r) hlocal hm (fun x hx => ?_)
      (fun x _ hnot => absurd (by rw [hpc]; rfl) hnot) (zombie_update rfl (by simp [Slot.freeproc]))
      ?_ ?_ ?_ ?_ ?_
    · by_cases hxq : x = q
      · exact .inr (.inr (by rw [← hxq]; simp [hx]))
      · exact .inl (by simp [hx, hxq])
    all_goals simp [Pc.Fresh, Pc.late]
  | @waitNext q addr rest havekids _ hnot =>
    refine h.goto hlocal hm rfl (fun _ _ _ => rfl) hsame trivial rfl ?_
    rintro _ _ _ heq x hx
    cases heq
    rcases mem_cons.mp (h.scan r addr (q :: rest) havekids hpc x hx) with rfl | hmem
    · exact absurd hx.2 (hnot hx.1)
    · exact hmem
  | sleepLock | sleepRelease =>
    exact h.goto hlocal hm rfl (fun _ _ _ => rfl) hsame hfresh rfl (by simp)
  | _ =>
    exact h.goto hlocal hm rfl (fun _ _ _ => rfl) hsame (by simp [Pc.Fresh, Pc.late]) rfl (by simp)

/-- Every move keeps what parents and children know. -/
theorem move (h : Wakes table s) (hlocal : Local s) (htable : ∀ p, p ∈ table)
    (hmove : Move calls table initproc s s') : Wakes table s' := by
  have hm := hmove
  cases hmove with
  | @call r c =>
    refine h.goto hlocal hm rfl (fun _ _ _ => rfl) (fun _ _ => id) ?_ ?_ ?_
    · cases c <;> simp [Call.start, Pc.Fresh, Pc.late]
    · cases c <;> rfl
    · cases c <;> simp [Call.start]
  | @dispatch r hst =>
    -- A runnable process is at none of the points of interest.
    have hfits := hlocal.fits r
    rw [hst] at hfits
    refine h.goto (r := r) hlocal hm (update_eq_self ..).symm (parent_same rfl)
      (zombie_update rfl (by simp)) (h.fresh r) ?_ ?_
    · cases hpc : s.pc r <;> simp_all [Pc.fits, Pc.late]
    · intro addr rest havekids hpc
      have hpc : s.pc r = .wait addr rest havekids := hpc
      rw [hpc] at hfits
      cases hfits.1
  | @preempt r hrun hholds =>
    refine h.goto (r := r) hlocal hm rfl (parent_same rfl) (zombie_update rfl (by simp))
      ⟨Bool.eq_false_iff.mpr fun hlate => ?_, h.fresh r⟩ rfl (by simp)
    rw [Pc.holds_of_late hlate] at hholds
    cases hholds
  | @own r _ _ _ hrun hpc =>
    exact h.goto (r := r) hlocal hm (update_eq_self ..).symm (parent_same rfl)
      (zombie_update rfl fun _ => .intro) (h.fresh r) (by simp [hpc, Pc.late]) (by simp [hpc])
  | turn hrun hpc hturn => exact h.turn hlocal htable hrun hpc hturn
  | exitRelease | exitSched =>
    exact h.goto hlocal hm rfl (fun _ _ _ => rfl) (fun _ _ => id) trivial rfl (by simp)

/-- Nobody waits and nobody has exited at the start. -/
theorem boot : Wakes table (State.boot initproc) := by
  have hpc : ∀ p, (State.boot initproc).pc p = .forkret ∨ (State.boot initproc).pc p = .unused := by
    intro p
    by_cases hp : p = initproc <;> simp [State.boot, hp]
  have hnot : ∀ p q, ¬ (State.boot initproc).Zombie p q := by
    rintro p q ⟨-, hst⟩
    by_cases hq : q = initproc <;> simp [State.boot, hq, Slot.zero] at hst
  refine ⟨fun p => ?_, fun p _ _ _ _ q hq => absurd hq (hnot p q), fun e _ _ _ he => ?_,
    fun e _ _ _ _ he => ?_, fun e _ _ he => ?_, fun p q _ hq => absurd hq (hnot p q)⟩
  · rcases hpc p with hp | hp <;> rw [hp] <;> trivial
  all_goals
    rcases hpc e with hp | hp <;> rw [hp] at he <;> cases he

end Wakes

/-! ### The children reaped -/

/-- What the history says about the processes that have exited. -/
structure Reaped (s : State P) : Prop where
  lt : ∀ e ∈ s.hist.exits, e.1 < s.nextpid
  exits : (s.hist.exits.map Prod.fst).Nodup
  alive : ∀ p, (s.slot p).state ≠ .unused → (s.slot p).state ≠ .zombie →
    (s.slot p).pid ∉ s.hist.exits.map Prod.fst
  zombie : ∀ p, (s.slot p).state = .zombie → ((s.slot p).pid, (s.slot p).xstate) ∈ s.hist.exits
  reaps : ∀ e ∈ s.hist.reaps, (e.pid, e.status) ∈ s.hist.exits ∧ e.parent = some e.caller ∧
    (e.delivered = none ∨ e.delivered = some e.status)
  gone : ∀ e ∈ s.hist.reaps, ∀ p, (s.slot p).state ≠ .unused → (s.slot p).pid ≠ e.pid
  once : (s.hist.reaps.map Reap.pid).Nodup

namespace Reaped

/-- A change of a slot in which nobody exits and nobody is reaped. -/
def Keeps (t t' : Slot P) : Prop :=
  t'.state ≠ .unused → t.state ≠ .unused ∧ t'.pid = t.pid ∧ t'.xstate = t.xstate ∧
    (t'.state = .zombie ↔ t.state = .zombie)

omit [DecidableEq P] in
/-- The steps in which nobody exits and nobody is reaped. -/
theorem frame (h : Reaped s) (hhist : s'.hist = s.hist) (hnext : s.nextpid ≤ s'.nextpid)
    (hslot : ∀ p, Keeps (s.slot p) (s'.slot p)) : Reaped s' where
  lt e he := (h.lt e (hhist ▸ he)).trans_le hnext
  exits := hhist ▸ h.exits
  alive p hp hz := by
    obtain ⟨hused, hpid, -, hzombie⟩ := hslot p hp
    rw [hpid, hhist]
    exact h.alive p hused (mt hzombie.mpr hz)
  zombie p hp := by
    obtain ⟨-, hpid, hx, hzombie⟩ := hslot p (by simp [hp])
    rw [hpid, hx, hhist]
    exact h.zombie p (hzombie.mp hp)
  reaps := hhist ▸ h.reaps
  gone e he p hp := by
    obtain ⟨hused, hpid, -⟩ := hslot p hp
    rw [hpid]
    exact h.gone e (hhist ▸ he) p hused
  once := hhist ▸ h.once

omit [DecidableEq P] in
theorem keeps_refl (t : Slot P) : Keeps t t := fun ht => ⟨ht, rfl, rfl, .rfl⟩

/-- A change of one slot. -/
theorem keeps_update {x : P} {t : Slot P} (ht : Keeps (s.slot x) t) (p : P) :
    Keeps (s.slot p) (update s.slot x t p) := by
  by_cases hp : p = x
  · subst hp
    rwa [update_self]
  · rw [update_of_ne hp]
    exact keeps_refl _

omit [DecidableEq P] in
/-- A process that runs changes its state. -/
theorem keeps_of_state {t t' : Slot P} (ht : t.state ≠ .unused) (hz : t.state ≠ .zombie)
    (hz' : t'.state ≠ .zombie) (hpid : t'.pid = t.pid) (hx : t'.xstate = t.xstate) : Keeps t t' :=
  fun _ => ⟨ht, hpid, hx, by simp [hz, hz']⟩

/-- A new process has a pid that nobody had before. -/
theorem child (h : Reaped s) {q : P} {t : Slot P} (hpid : t.pid = s.nextpid)
    (hst : t.state ≠ .zombie) (hslot : s'.slot = update s.slot q t)
    (hnext : s'.nextpid = s.nextpid + 1) (hhist : s'.hist = s.hist) : Reaped s' := by
  have hold : ∀ p, p ≠ q → s'.slot p = s.slot p := fun p hp => by
    rw [hslot, update_of_ne hp]
  have hself : s'.slot q = t := by rw [hslot, update_self]
  refine ⟨fun e he => ?_, hhist ▸ h.exits, fun p hp hz => ?_, fun p hp => ?_, hhist ▸ h.reaps,
    fun e he p hp => ?_, hhist ▸ h.once⟩
  · rw [hnext]
    exact (h.lt e (hhist ▸ he)).trans (Int.lt_succ _)
  · rw [hhist]
    by_cases hpq : p = q
    · rw [hpq, hself, hpid]
      intro hmem
      obtain ⟨e, he, heq⟩ := mem_map.mp hmem
      exact absurd (h.lt e he) (by simp [heq])
    · rw [hold p hpq] at hp hz ⊢
      exact h.alive p hp hz
  · by_cases hpq : p = q
    · rw [hpq, hself] at hp
      exact absurd hp hst
    · rw [hold p hpq] at hp ⊢
      exact hhist ▸ h.zombie p hp
  · rw [hhist] at he
    by_cases hpq : p = q
    · rw [hpq, hself, hpid]
      exact (h.lt _ (h.reaps e he).1).ne'
    · rw [hold p hpq] at hp ⊢
      exact h.gone e he p hp

/-- An exit is entered into the history once. -/
theorem exit (h : Reaped s) (hpids : Pids s) {status : ℤ} (hrun : (s.slot r).state = .running)
    (hslot : s'.slot = update s.slot r
      { s.slot r with xstate := status, state := .zombie })
    (hnext : s'.nextpid = s.nextpid)
    (hhist : s'.hist = { s.hist with exits := s.hist.exits ++ [((s.slot r).pid, status)] }) :
    Reaped s' := by
  have hold : ∀ p, p ≠ r → s'.slot p = s.slot p := fun p hp => by
    rw [hslot, update_of_ne hp]
  have hself : s'.slot r = { s.slot r with xstate := status, state := .zombie } := by
    rw [hslot, update_self]
  have hused : (s.slot r).state ≠ .unused := by simp [hrun]
  have hpid : ∀ p, (s'.slot p).pid = (s.slot p).pid := fun p => by
    by_cases hp : p = r
    · rw [hp, hself]
    · rw [hold p hp]
  refine ⟨fun e he => ?_, ?_, fun p hp hz => ?_, fun p hp => ?_, fun e he => ?_,
    fun e he p hp => ?_, by rw [hhist]; exact h.once⟩
  · rw [hhist] at he
    rw [hnext]
    rcases mem_append.mp he with he | he
    · exact h.lt e he
    · rw [mem_singleton.mp he]
      exact (hpids.lt r hused).2
  · simp only [hhist, map_append, map_cons, map_nil]
    refine List.nodup_append.mpr ⟨h.exits, List.nodup_singleton _, fun a ha b hb hab => ?_⟩
    rw [mem_singleton.mp hb] at hab
    exact h.alive r hused (by simp [hrun]) (hab ▸ ha)
  · have hpr : p ≠ r := by
      rintro rfl
      exact hz (by rw [hself])
    rw [hold p hpr] at hp hz
    rw [hpid, hhist, map_append, mem_append, not_or]
    refine ⟨h.alive p hp hz, fun hmem => hpr (hpids.inj p r hp hused ?_)⟩
    exact mem_singleton.mp hmem
  · simp only [hhist, mem_append, mem_singleton]
    by_cases hpr : p = r
    · right
      rw [hpr, hself]
    · left
      rw [hold p hpr] at hp ⊢
      exact h.zombie p hp
  · simp only [hhist] at he ⊢
    exact ⟨List.mem_append_left _ (h.reaps e he).1, (h.reaps e he).2⟩
  · simp only [hhist] at he
    rw [hpid]
    refine h.gone e he p fun hunused => hp ?_
    rw [hold p (by rintro rfl; exact hused hunused), hunused]

/-- A zombie that is reaped leaves the table. -/
theorem reap (h : Reaped s) (hpids : Pids s) {q : P} {addr : Option Bool}
    (hparent : (s.slot q).parent = some r) (hzombie : (s.slot q).state = .zombie)
    (hslot : s'.slot = update s.slot q (s.slot q).freeproc)
    (hnext : s'.nextpid = s.nextpid)
    (hhist : s'.hist = { s.hist with reaps := s.hist.reaps ++ [reapOf r q addr (s.slot q)] }) :
    Reaped s' := by
  have hused : (s.slot q).state ≠ .unused := by simp [hzombie]
  have hslot' : ∀ p, (s'.slot p).state ≠ .unused → p ≠ q ∧ s'.slot p = s.slot p := by
    intro p hp
    have hpq : p ≠ q := by
      rintro rfl
      exact hp (by rw [hslot, update_self]; rfl)
    exact ⟨hpq, by rw [hslot, update_of_ne hpq]⟩
  refine ⟨fun e he => ?_, by rw [hhist]; exact h.exits, fun p hp hz => ?_, fun p hp => ?_,
    fun e he => ?_, fun e he p hp => ?_, ?_⟩
  · rw [hnext]
    exact h.lt e (by rwa [hhist] at he)
  · obtain ⟨-, hsame⟩ := hslot' p hp
    rw [hsame] at hp hz ⊢
    rw [hhist]
    exact h.alive p hp hz
  · obtain ⟨-, hsame⟩ := hslot' p (by simp [hp])
    rw [hsame] at hp ⊢
    rw [hhist]
    exact h.zombie p hp
  · simp only [hhist] at he ⊢
    rcases mem_append.mp he with he | he
    · exact h.reaps e he
    · rw [mem_singleton.mp he]
      exact ⟨h.zombie q hzombie, hparent, by cases addr <;> simp [reapOf]⟩
  · obtain ⟨hpq, hsame⟩ := hslot' p hp
    rw [hsame] at hp ⊢
    simp only [hhist] at he
    rcases mem_append.mp he with he | he
    · exact h.gone e he p hp
    · rw [mem_singleton.mp he]
      exact fun hpid => hpq (hpids.inj p q hp hused hpid)
  · simp only [hhist, map_append, map_cons, map_nil]
    refine List.nodup_append.mpr ⟨h.once, List.nodup_singleton _, fun a ha b hb hab => ?_⟩
    obtain ⟨e, he, heq⟩ := mem_map.mp ha
    rw [mem_singleton.mp hb, ← heq] at hab
    exact h.gone e he q hused hab.symm

/-- Every move keeps the account of exits and children reaped. -/
theorem move (h : Reaped s) (hlocal : Local s) (hpids : Pids s)
    (hmove : Move calls table initproc s s') : Reaped s' := by
  have hsame : ∀ p, Keeps (s.slot p) (s.slot p) := fun p => keeps_refl _
  cases hmove with
  | dispatch hst =>
    exact h.frame rfl le_rfl
      (keeps_update (keeps_of_state (by simp [hst]) (by simp [hst]) (by simp) rfl rfl))
  | preempt hrun =>
    exact h.frame rfl le_rfl
      (keeps_update (keeps_of_state (by simp [hrun]) (by simp [hrun]) (by simp) rfl rfl))
  | own => exact h.frame rfl le_rfl (keeps_update fun hst => ⟨hst, rfl, rfl, .rfl⟩)
  | @turn r _ _ hrun hpc hturn =>
    cases hturn with
    | sleepPark =>
      exact h.frame rfl le_rfl
        (keeps_update (keeps_of_state (by simp [hrun]) (by simp [hrun]) (by simp) rfl rfl))
    | wakeupSlot =>
      refine h.frame rfl le_rfl (keeps_update ?_)
      unfold wakeSlot
      split_ifs with hboth
      · exact keeps_of_state (by simp [hboth.1]) (by simp [hboth.1]) (by simp) rfl rfl
      · exact keeps_refl _
    | @killHit q =>
      refine h.frame rfl le_rfl (keeps_update fun hst => ⟨?_, rfl, rfl, ?_⟩)
      all_goals
        unfold killSlot at *
        by_cases hsleep : (s.slot q).state = .sleeping <;> simp_all
    | forkFail =>
      exact h.frame rfl (Int.le_add_one le_rfl) (keeps_update fun hst => absurd rfl hst)
    | @forkRun np =>
      have hused := hlocal.child r np (by rw [hpc]; rfl)
      exact h.frame rfl le_rfl
        (keeps_update (keeps_of_state (by simp [hused]) (by simp [hused]) (by simp) rfl rfl))
    | sleepTidy | forkParent | exitFiles | exitReparentChild =>
      exact h.frame rfl le_rfl (keeps_update fun hst => ⟨hst, rfl, rfl, .rfl⟩)
    | @forkChild q =>
      exact h.child (q := q) (t := forkSlot none s.nextpid (s.slot r) (s.slot q)) rfl
        (by simp [forkSlot]) rfl rfl rfl
    | exitZombie => exact h.exit hpids hrun rfl rfl rfl
    | waitReap hparent _ hzombie => exact h.reap hpids hparent hzombie rfl rfl rfl
    | _ => exact h.frame rfl le_rfl hsame
  | _ => exact h.frame rfl le_rfl hsame

/-- Nobody has exited at the start. -/
theorem boot : Reaped (State.boot initproc) := by
  refine ⟨by simp [State.boot], by simp [State.boot], by simp [State.boot], fun p hp => ?_,
    by simp [State.boot], by simp [State.boot], by simp [State.boot]⟩
  by_cases hpi : p = initproc <;> simp [State.boot, hpi, Slot.zero] at hp

end Reaped

/-- What fork, exit and wait guarantee in a state of a run. -/
structure NoExitLost (initproc : P) (s : State P) : Prop where
  /-- The parent of every process but `initproc` is alive. -/
  parent : ∀ p, p ≠ initproc →
    (s.slot p).state ∈ [ProcState.runnable, .running, .sleeping, .zombie] →
      ∃ q, (s.slot p).parent = some q ∧ (s.slot q).state ≠ .unused ∧ (s.slot q).state ≠ .zombie
  /-- While `wait_lock` is free no process sleeps in `kwait` over a zombie child. -/
  awake : s.spin .wait = none → ∀ p q, (s.slot q).parent = some p → (s.slot q).state = .zombie →
    ¬ ((s.slot p).state = .sleeping ∧ (s.slot p).chan = some (.proc p))
  /-- No two exits are of the same process. -/
  exits : (s.hist.exits.map Prod.fst).Nodup
  /-- A process is reaped once at most. -/
  once : (s.hist.reaps.map Reap.pid).Nodup
  /-- It has exited; who reaps it is its parent, and gets its own exit status. -/
  reaps : ∀ e ∈ s.hist.reaps, (e.pid, e.status) ∈ s.hist.exits ∧ e.parent = some e.caller ∧
    (e.delivered = none ∨ e.delivered = some e.status)

/-- Fork, exit and wait keep a process tree and lose no exit, in every interleaving of the
processes. -/
theorem no_exit_lost (htable : ∀ p, p ∈ table) {s : State P} (h : Reachable table initproc s) :
    NoExitLost initproc s := by
  obtain ⟨hlocal, -, htree, hwakes, hreaped⟩ :=
    h.induct (I := fun s => Tree initproc s ∧ Wakes table s ∧ Reaped s)
      ⟨Tree.boot, Wakes.boot, Reaped.boot⟩
      fun s s' hlocal hpids ⟨htree, hwakes, hreaped⟩ hmove =>
        ⟨htree.move hlocal htable hmove, hwakes.move hlocal htable hmove,
          hreaped.move hlocal hpids hmove⟩
  refine ⟨fun p hp hst => ?_, fun hspin p q hparent hzombie hsleep => ?_, hreaped.exits,
    hreaped.once, hreaped.reaps⟩
  · have hstarted : (s.slot p).started := by
      constructor <;> rintro heq <;> simp [heq] at hst
    obtain ⟨q, hq⟩ := Option.ne_none_iff_exists'.mp (htree.parent p hp hstarted)
    exact ⟨q, hq, htree.alive hlocal hq⟩
  · obtain ⟨e, rest, k, he, -⟩ := hwakes.zombies p q (.inl hsleep) ⟨hparent, hzombie⟩
    -- The wakeup to come would hold `wait_lock`.
    have hwf := hlocal.wf e
    rw [he] at hwf
    have hholds := (hlocal.spin .wait e).mpr (by rw [he]; exact hwf.1 _ rfl)
    rw [hspin] at hholds
    cases hholds

/-- The first process forks a second one and sleeps in `kwait`; the second one exits with
status 7. -/
def exitWhileWaiting : List (Act (Fin 3)) :=
  [.dispatch 0, .step 0, .call 0 (.kfork none)] ++ List.replicate 6 (.step 0) ++
    [.dispatch 1, .step 1, .call 0 (.kwait (some true))] ++ List.replicate 8 (.step 0) ++
    [.call 1 (.kexit 7)] ++ List.replicate 13 (.step 1) ++ [.dispatch 0] ++
    List.replicate 5 (.step 0)

/-- In this run the first process is woken and gets the status of the second one. -/
theorem exitWhileWaiting_reaped :
    ∃ s, runs [0, 1, 2] 0 exitWhileWaiting (State.boot 0) = some s ∧
      s.hist.exits = [(2, 7)] ∧ s.hist.reaps.map Reap.delivered = [some 7] ∧ NoExitLost 0 s := by
  have hfacts : ((runs [0, 1, 2] 0 exitWhileWaiting (State.boot 0)).map fun s =>
      (s.hist.exits, s.hist.reaps.map Reap.delivered)) = some ([(2, 7)], [some 7]) := by
    decide +kernel
  obtain ⟨s, hs, heq⟩ := Option.map_eq_some_iff.mp hfacts
  simp only [Prod.mk.injEq] at heq
  exact ⟨s, hs, heq.1, heq.2, no_exit_lost (by decide)
    (ReachableBy.boot.runs (fun _ _ _ => trivial) hs)⟩

end RiscvKernel.Sched
