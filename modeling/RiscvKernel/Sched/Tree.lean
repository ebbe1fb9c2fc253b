import RiscvKernel.Sched.Sleeplock

/-!
# Fork, exit and wait

The process tree. `parent` fields change under `wait_lock` only, and a process becomes a
zombie while it holds `wait_lock`, after it has passed its children to `initproc` and woken
its parent. So every process has a living parent, and no parent sleeps in `kwait` over a
zombie child. The history of exits and of children reaped shows that each exit is reaped
once at most, by the parent of the zombie, with the zombie's own pid and status.
-/

namespace RiscvKernel.Sched

open Function

variable {P : Type} [DecidableEq P] {calls : Call → Prop} {table : List P} {initproc : P}

/-! ### Parents -/

/-- The slots that may still have an exiting process as their parent. -/
def Pc.reparents : Pc P → Option (List P)
  | .exitReparent _ rest => some rest
  | .exitZombie _ | .exitRelease | .exitSched | .zombie | .unused => some []
  | .acquire _ k | .release _ k | .wakeup _ _ k | .yielded k | .sleepLock _ _ k
  | .sleepRelease _ _ k | .sleepPark _ _ k | .sleepTidy _ k => k.reparents
  | _ => none

/-- The child, parent already set, that a process is about to make runnable. -/
def Pc.starts : Pc P → Option P
  | .forkRun np => some np
  | .acquire _ k | .release _ k | .yielded k => k.starts
  | _ => none

/-- A slot with a process that has been started. -/
def Slot.started (t : Slot P) : Prop := t.state ≠ .unused ∧ t.state ≠ .used

/-- The parent fields form a tree with `initproc` at its root. -/
structure Tree (initproc : P) (s : State P) : Prop where
  init : (s.pc initproc).reparents = none ∧ (s.pc initproc).leaving = false
  orphans : ∀ p rest, (s.pc p).reparents = some rest → ∀ q, (s.slot q).parent = some p → q ∈ rest
  parent : ∀ p, p ≠ initproc → (s.slot p).started → (s.slot p).parent ≠ none
  starts : ∀ p np, (s.pc p).starts = some np → (s.slot np).parent ≠ none
  clean : ∀ p, (s.slot p).state = .unused → (s.slot p).parent = none

omit [DecidableEq P] in
/-- A child about to be made runnable is a child about to be started. -/
theorem Pc.child_of_starts {k : Pc P} {np : P} (h : k.starts = some np) : k.child = some np := by
  induction k with
  | acquire l k ih | release l k ih | yielded k ih => exact ih h
  | forkRun np' => exact h
  | _ => simp [Pc.starts] at h

omit [DecidableEq P] in
/-- Nobody has an unused slot or a zombie as parent. -/
theorem Tree.alive {s : State P} (h : Tree initproc s) (hlocal : Local s) {p q : P}
    (hq : (s.slot q).parent = some p) :
    (s.slot p).state ≠ .unused ∧ (s.slot p).state ≠ .zombie := by
  have hfits := hlocal.fits p
  have hnone : (s.pc p).reparents ≠ some [] := fun hrep =>
    absurd (h.orphans p [] hrep q hq) (by simp)
  constructor
  · intro hst
    rw [hst] at hfits
    cases hpc : s.pc p <;> simp_all [Pc.fits, Pc.reparents]
  · intro hst
    rw [hst] at hfits
    cases hpc : s.pc p <;> simp_all [Pc.fits, Pc.reparents]

namespace Tree

variable {s s' : State P}

/-- A step of one process along its own code that keeps the parents. -/
theorem goto (h : Tree initproc s) {r : P} {j k : Pc P} (hj : s.pc r = j)
    (hpc : s'.pc = update s.pc r k)
    (hparent : ∀ q, (s'.slot q).parent = (s.slot q).parent)
    (hst : ∀ q, (s'.slot q).started → (s.slot q).started)
    (hunused : ∀ q, (s'.slot q).state = .unused → (s.slot q).state = .unused)
    (hleaving : k.leaving = j.leaving)
    (hrep : ∀ rest, k.reparents = some rest → r ≠ initproc ∧
      ∀ q, (s.slot q).parent = some r → q ∈ rest)
    (hstarts : ∀ np, k.starts = some np → j.starts = some np) : Tree initproc s' := by
  subst hj
  have hcase : ∀ q, q ≠ r → s'.pc q = s.pc q := fun q hq => by rw [hpc, update_of_ne hq]
  have hself : s'.pc r = k := by rw [hpc, update_self]
  refine ⟨?_, fun p rest hp q hq => ?_, fun p hp hstarted => ?_, fun p np hp => ?_,
    fun p hp => ?_⟩
  · by_cases hi : initproc = r
    · subst hi
      rw [hself, hleaving]
      refine ⟨?_, h.init.2⟩
      cases hk : k.reparents with
      | none => rfl
      | some rest => exact absurd rfl (hrep rest hk).1
    · rw [hcase _ hi]
      exact h.init
  · rw [hparent] at hq
    by_cases hpr : p = r
    · subst hpr
      rw [hself] at hp
      exact (hrep rest hp).2 q hq
    · rw [hcase p hpr] at hp
      exact h.orphans p rest hp q hq
  · rw [hparent]
    exact h.parent p hp (hst p hstarted)
  · rw [hparent]
    by_cases hpr : p = r
    · subst hpr
      rw [hself] at hp
      exact h.starts p np (hstarts np hp)
    · rw [hcase p hpr] at hp
      exact h.starts p np hp
  · rw [hparent]
    exact h.clean p (hunused p hp)

omit [DecidableEq P] in
/-- The slots left to reparent stay the same. -/
theorem reparents_same (h : Tree initproc s) {r : P} {j k : Pc P} (hj : s.pc r = j)
    (hk : k.reparents = j.reparents) (rest : List P) (hrest : k.reparents = some rest) :
    r ≠ initproc ∧ ∀ q, (s.slot q).parent = some r → q ∈ rest := by
  rw [hk, ← hj] at hrest
  refine ⟨?_, h.orphans r rest hrest⟩
  rintro rfl
  rw [h.init.1] at hrest
  cases hrest

/-- A slot update that keeps the parent. -/
theorem parent_update {x : P} {t : Slot P} (ht : t.parent = (s.slot x).parent) (q : P) :
    (update s.slot x t q).parent = (s.slot q).parent := by
  by_cases hq : q = x
  · subst hq
    rw [update_self, ht]
  · rw [update_of_ne hq]

/-- A property of the slots that an update does not bring about anew. -/
theorem slot_update {A : Slot P → Prop} {x : P} {t : Slot P} (ht : A t → A (s.slot x)) (q : P)
    (hq : A (update s.slot x t q)) : A (s.slot q) := by
  by_cases hqx : q = x
  · subst hqx
    rw [update_self] at hq
    exact ht hq
  · rwa [update_of_ne hqx] at hq

/-- Passing a child to `initproc`. -/
theorem reparentChild (h : Tree initproc s) {r q : P} {status : ℤ} {rest : List P}
    (hpc : s.pc r = .exitReparent status (q :: rest)) (hparent : (s.slot q).parent = some r)
    (c : Option (Chan P)) (l : List P) :
    Tree initproc ((s.setSlot q { s.slot q with parent := some initproc }).goto r
      (.wakeup c l (.exitReparent status rest))) := by
  have hri : initproc ≠ r := by
    rintro rfl
    have := h.init.1
    rw [hpc] at this
    cases this
  refine ⟨by simpa [hri] using h.init, fun p rest' hp x hx => ?_, fun p hp hst => ?_,
    fun p np hp => ?_, fun p hp => ?_⟩
  · by_cases hxq : x = q
    · -- The child now belongs to `initproc`, which does not exit.
      subst hxq
      simp only [State.goto, State.setSlot, update_self, Option.some.injEq] at hx
      subst hx
      simp [hri, h.init.1] at hp
    · have hxp : (s.slot x).parent = some p := by simpa [hxq] using hx
      by_cases hpr : p = r
      · subst hpr
        simp only [State.goto, update_self, Pc.reparents, Option.some.injEq] at hp
        subst hp
        have hmem := h.orphans p (q :: rest) (by rw [hpc]; rfl) x hxp
        exact (List.mem_cons.mp hmem).resolve_left hxq
      · exact h.orphans p rest' (by simpa [hpr] using hp) x hxp
  · by_cases hpq : p = q
    · subst hpq; simp
    · have hst : (s.slot p).started := by simpa [hpq] using hst
      simpa [hpq] using h.parent p hp hst
  · by_cases hnq : np = q
    · subst hnq; simp
    · have hp : (s.pc p).starts = some np := by
        by_cases hpr : p = r
        · subst hpr; simp [Pc.starts] at hp
        · simpa [hpr] using hp
      simpa [hnq] using h.starts p np hp
  · by_cases hpq : p = q
    · subst hpq
      rw [h.clean p (by simpa using hp)] at hparent
      cases hparent
    · have hp : (s.slot p).state = .unused := by simpa [hpq] using hp
      simpa [hpq] using h.clean p hp

/-- A slot is given to a new child or taken from a zombie. -/
theorem slotChange (h : Tree initproc s) {r q : P} {j k k' : Pc P} {t : Slot P}
    (hj : s.pc r = j) (hqr : q ≠ r)
    (hqi : q ≠ initproc) (hnokids : ∀ x, (s.slot x).parent ≠ some q)
    (hslot : s'.slot = update s.slot q t)
    (hpc : s'.pc = update (update s.pc q k') r k)
    (ht : ¬ t.started) (hparent : t.parent = none) (hq : ∀ p, (s.pc p).starts ≠ some q)
    (hstarts' : k'.starts = none) (hleaving : k.leaving = j.leaving)
    (hrep : k.reparents = none) (hstarts : k.starts = none) : Tree initproc s' := by
  subst hj
  have hpcr : s'.pc r = k := by rw [hpc, update_self]
  have hpcq : s'.pc q = k' := by rw [hpc, update_of_ne hqr, update_self]
  have hpco : ∀ p, p ≠ r → p ≠ q → s'.pc p = s.pc p := fun p hpr hpq => by
    rw [hpc, update_of_ne hpr, update_of_ne hpq]
  have hslotq : s'.slot q = t := by rw [hslot, update_self]
  have hsloto : ∀ p, p ≠ q → s'.slot p = s.slot p := fun p hp => by
    rw [hslot, update_of_ne hp]
  refine ⟨?_, fun p rest hp x hx => ?_, fun p hp hst => ?_, fun p np hp => ?_, fun p hp => ?_⟩
  · by_cases hir : initproc = r
    · subst hir
      rw [hpcr, hrep, hleaving]
      exact ⟨rfl, h.init.2⟩
    · rw [hpco _ hir (Ne.symm hqi)]
      exact h.init
  · have hxq : x ≠ q := by
      rintro rfl
      rw [hslotq, hparent] at hx
      cases hx
    rw [hsloto x hxq] at hx
    by_cases hpr : p = r
    · subst hpr
      rw [hpcr, hrep] at hp
      cases hp
    · by_cases hpq : p = q
      · subst hpq
        exact absurd hx (hnokids x)
      · rw [hpco p hpr hpq] at hp
        exact h.orphans p rest hp x hx
  · have hpq : p ≠ q := by
      rintro rfl
      rw [hslotq] at hst
      exact ht hst
    rw [hsloto p hpq] at hst ⊢
    exact h.parent p hp hst
  · have hold : (s.pc p).starts = some np := by
      by_cases hpr : p = r
      · subst hpr
        rw [hpcr, hstarts] at hp
        cases hp
      · by_cases hpq : p = q
        · subst hpq
          rw [hpcq, hstarts'] at hp
          cases hp
        · rwa [hpco p hpr hpq] at hp
    have hnq : np ≠ q := by
      rintro rfl
      exact hq p hold
    rw [hsloto np hnq]
    exact h.starts p np hold
  · by_cases hpq : p = q
    · rw [hpq, hslotq, hparent]
    · rw [hsloto p hpq] at hp ⊢
      exact h.clean p hp

/-- Giving a child its parent. -/
theorem forkParent (h : Tree initproc s) (hlocal : Local s) {r np : P}
    (hpc : s.pc r = .forkParent np) :
    Tree initproc ((s.setSlot np { s.slot np with parent := some r }).goto r
      (.release .wait (.forkRun np))) := by
  have hused := hlocal.child r np (by rw [hpc]; rfl)
  refine ⟨?_, fun p rest hp x hx => ?_, fun p hp hst => ?_, fun p np' hp => ?_, fun p hp => ?_⟩
  · by_cases hir : initproc = r
    · subst hir
      simp [Pc.reparents, Pc.leaving]
    · simpa [hir] using h.init
  · have hpr : p ≠ r := by
      rintro rfl
      simp [Pc.reparents] at hp
    have hxn : x ≠ np := by
      rintro rfl
      have heq : r = p := by simpa using hx
      exact hpr heq.symm
    exact h.orphans p rest (by simpa [hpr] using hp) x (by simpa [hxn] using hx)
  · by_cases hpn : p = np
    · subst hpn; simp
    · simpa [hpn] using h.parent p hp (by simpa [hpn] using hst)
  · by_cases hnn : np' = np
    · subst hnn; simp
    · have hpr : p ≠ r := by
        rintro rfl
        have heq : np = np' := by simpa [Pc.starts] using hp
        exact hnn heq.symm
      simpa [hnn] using h.starts p np' (by simpa [hpr] using hp)
  · have hpn : p ≠ np := by
      rintro rfl
      simp [hused] at hp
    simpa [hpn] using h.clean p (by simpa [hpn] using hp)

/-- A section of a running process keeps the tree. -/
theorem turn (h : Tree initproc s) (hlocal : Local s) (htable : ∀ p, p ∈ table) {r : P}
    {k : Pc P} (hrun : (s.slot r).state = .running) (hpc : s.pc r = k)
    (hturn : Turn table initproc s r k s') : Tree initproc s' := by
  have hstarted : ∀ {t : Slot P}, t.started → (s.slot r).started :=
    fun _ => ⟨by simp [hrun], by simp [hrun]⟩
  have hwf := hlocal.wf r
  have hinit := h.init
  rw [hpc] at hwf
  cases hturn with
  | sleepPark | exitZombie =>
    exact h.goto hpc rfl (parent_update rfl) (slot_update hstarted)
      (slot_update (A := fun t => t.state = .unused) (by simp)) rfl (h.reparents_same hpc rfl)
      (by simp [Pc.starts])
  | sleepTidy =>
    refine h.goto hpc rfl (parent_update rfl) (slot_update hstarted)
      (slot_update (A := fun t => t.state = .unused) (by simp [hrun])) rfl
      (h.reparents_same hpc rfl) fun np hnp => ?_
    have hchild := Pc.child_of_starts hnp
    rw [Pc.child, hwf.2.2.1] at hchild
    cases hchild
  | wakeupEnd =>
    refine h.goto hpc rfl (fun _ => rfl) (fun _ => id) (fun _ => id) rfl (h.reparents_same hpc rfl)
      fun np hnp => ?_
    have hchild := Pc.child_of_starts hnp
    rw [hwf.2.2.1] at hchild
    cases hchild
  | wakeupSlot =>
    refine h.goto hpc rfl (parent_update ?_) (slot_update ?_)
      (slot_update (A := fun t => t.state = .unused) ?_) rfl (h.reparents_same hpc rfl) fun _ => id
    all_goals unfold wakeSlot; split_ifs with hboth
    · rfl
    · rfl
    · exact fun _ => ⟨by simp [hboth.1], by simp [hboth.1]⟩
    · exact id
    · simp
    · exact id
  | @killHit q =>
    refine h.goto hpc rfl (parent_update rfl) (slot_update ?_)
      (slot_update (A := fun t => t.state = .unused) ?_) rfl (by simp [Pc.reparents]) fun _ => id
    all_goals unfold killSlot
    · by_cases hst : (s.slot q).state = .sleeping <;> simp [Slot.started, hst]
    · by_cases hst : (s.slot q).state = .sleeping <;> simp [hst]
  | @forkFail q _ _ _ hunused =>
    exact h.goto hpc rfl (parent_update (h.clean q hunused).symm)
      (slot_update (by simp [Slot.started, Slot.freeproc]))
      (slot_update (A := fun t => t.state = .unused) fun _ => hunused) rfl
      (by simp [Pc.reparents]) fun _ => id
  | @forkChild q _ _ hunused =>
    have hqr : q ≠ r := slot_ne hunused hrun (by decide)
    have hnokids : ∀ x, (s.slot x).parent ≠ some q := fun x hx => (h.alive hlocal hx).1 hunused
    have hqi : q ≠ initproc := by
      rintro rfl
      exact Sleeplock.in_use hlocal h.init.2 hunused
    exact h.slotChange hpc hqr hqi hnokids rfl rfl (by simp [Slot.started, forkSlot])
      (by simp [forkSlot, h.clean q hunused])
      (fun p hp => hlocal.no_kid (by simp [hunused]) p (Pc.child_of_starts hp)) rfl rfl rfl rfl
  | @waitReap q _ _ _ _ hplock hzombie =>
    have hqr : q ≠ r := slot_ne hzombie hrun (by decide)
    have hnokids : ∀ x, (s.slot x).parent ≠ some q := fun x hx => (h.alive hlocal hx).2 hzombie
    have hqi : q ≠ initproc := by
      rintro rfl
      simp [hlocal.zombie hzombie hplock, Pc.leaving] at hinit
    exact h.slotChange hpc hqr hqi hnokids rfl rfl (by simp [Slot.started, Slot.freeproc]) rfl
      (fun p hp => hlocal.no_kid (by simp [hzombie]) p (Pc.child_of_starts hp)) rfl rfl rfl rfl
  | forkParent => exact h.forkParent hlocal hpc
  | @forkRun np =>
    have hstarts := h.starts r np (by rw [hpc]; rfl)
    have hnext : Tree initproc (s.goto r .run) :=
      h.goto hpc rfl (fun _ => rfl) (fun _ => id) (fun _ => id) rfl (by simp [Pc.reparents])
        (by simp [Pc.starts])
    have hsame : ∀ q, (update s.slot np { s.slot np with state := .runnable } q).parent =
        (s.slot q).parent := parent_update rfl
    refine ⟨hnext.init, fun p rest hp q hq => hnext.orphans p rest hp q ?_, fun p hp hst => ?_,
      fun p np' hp => ?_, fun p hp => ?_⟩
    · exact (hsame q).symm.trans hq
    · refine (hsame p).symm ▸ ?_
      by_cases hpn : p = np
      · rw [hpn]
        exact hstarts
      · exact h.parent p hp (by simpa [hpn] using hst)
    · exact (hsame np').symm ▸ hnext.starts p np' hp
    · refine (hsame p).trans ?_
      have hpn : p ≠ np := by
        rintro rfl
        simp at hp
      exact h.clean p (by simpa [hpn] using hp)
  | exitFiles =>
    refine h.goto hpc rfl (parent_update rfl) (slot_update hstarted)
      (slot_update (A := fun t => t.state = .unused) (by simp [hrun])) rfl
      (fun rest hrest => ⟨?_, fun q _ => ?_⟩) (by simp [Pc.starts])
    · rintro rfl
      simp [hpc, Pc.leaving] at hinit
    · simp only [Pc.reparents, Option.some.injEq] at hrest
      rw [← hrest]
      exact htable q
  | exitReparentChild hparent => exact h.reparentChild hpc hparent _ _
  | @exitReparentNext q status rest hparent =>
    refine h.goto hpc rfl (fun _ => rfl) (fun _ => id) (fun _ => id) rfl
      (fun rest' hrest => ⟨?_, fun x hx => ?_⟩) fun _ => id
    · rintro rfl
      simp [hpc, Pc.reparents] at hinit
    simp only [Pc.reparents, Option.some.injEq] at hrest
    subst hrest
    have hmem := h.orphans r (q :: rest) (by rw [hpc]; rfl) x hx
    rcases List.mem_cons.mp hmem with rfl | hmem
    · exact absurd hx hparent
    · exact hmem
  | _ =>
    exact h.goto hpc rfl (fun _ => rfl) (fun _ => id) (fun _ => id) rfl (h.reparents_same hpc rfl)
      (by simp [Pc.starts])

/-- Every move keeps the tree. -/
theorem move (h : Tree initproc s) (hlocal : Local s) (htable : ∀ p, p ∈ table)
    (hmove : Move calls table initproc s s') : Tree initproc s' := by
  cases hmove with
  | @call r c hrun hpc hadmitted =>
    cases c with
    | kexit status =>
      have hri : initproc ≠ r := Ne.symm hadmitted.1
      refine ⟨by simpa [hri] using h.init, fun p rest hp q hq => ?_, h.parent, fun p np hp => ?_,
        h.clean⟩
      · by_cases hpr : p = r
        · subst hpr; simp [Call.start, Pc.reparents] at hp
        · exact h.orphans p rest (by simpa [hpr] using hp) q hq
      · by_cases hpr : p = r
        · subst hpr; simp [Call.start, Pc.starts] at hp
        · exact h.starts p np (by simpa [hpr] using hp)
    | _ =>
      exact h.goto hpc rfl (fun _ => rfl) (fun _ => id) (fun _ => id) rfl
        (by simp [Call.start, Pc.reparents]) (by simp [Call.start, Pc.starts])
  | @dispatch r hst =>
    exact h.goto (r := r) rfl (update_eq_self ..).symm (parent_update rfl)
      (slot_update fun _ => ⟨by simp [hst], by simp [hst]⟩)
      (slot_update (A := fun t => t.state = .unused) (by simp)) rfl (h.reparents_same rfl rfl)
      fun _ => id
  | preempt hrun =>
    exact h.goto rfl rfl (parent_update rfl) (slot_update fun _ => ⟨by simp [hrun], by simp [hrun]⟩)
      (slot_update (A := fun t => t.state = .unused) (by simp)) rfl (h.reparents_same rfl rfl)
      fun _ => id
  | @own r _ _ _ hrun =>
    exact h.goto (r := r) rfl (update_eq_self ..).symm (parent_update rfl)
      (slot_update fun _ => ⟨by simp [hrun], by simp [hrun]⟩)
      (slot_update (A := fun t => t.state = .unused) (by simp [hrun])) rfl
      (h.reparents_same rfl rfl) fun _ => id
  | turn hrun hpc hturn => exact h.turn hlocal htable hrun hpc hturn
  | exitRelease hpc | exitSched hpc =>
    exact h.goto hpc rfl (fun _ => rfl) (fun _ => id) (fun _ => id) rfl (h.reparents_same hpc rfl)
      fun _ => id

/-- There is one process. -/
theorem boot : Tree initproc (State.boot initproc) := by
  have hslot : ∀ p, p ≠ initproc → (State.boot initproc).slot p = Slot.zero := fun p hp => by
    simp [State.boot, hp]
  have hparent : ∀ p, ((State.boot initproc).slot p).parent = none := by
    intro p
    by_cases hp : p = initproc
    · subst hp; simp [State.boot, Slot.zero]
    · rw [hslot p hp]; rfl
  refine ⟨by simp [State.boot, Pc.reparents, Pc.leaving], fun p rest hp q hq => ?_,
    fun p hp hst => ?_, fun p np hp => ?_, fun p _ => hparent p⟩
  · rw [hparent] at hq
    cases hq
  · rw [hslot p hp] at hst
    exact absurd rfl hst.1
  · by_cases hpi : p = initproc <;> simp [State.boot, hpi, Pc.starts] at hp

end Tree

end RiscvKernel.Sched
