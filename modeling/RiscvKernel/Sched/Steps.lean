import RiscvKernel.Sched.Model

/-!
# The steps of the process table

What one step does, branch by branch, and the facts about program points that every run
keeps: who holds which spinlock, in which state a process can be where, and what follows
when a lock has been taken.
-/

namespace RiscvKernel.Sched

open Function

variable {P : Type} [DecidableEq P] {calls : Call → Prop} {table : List P} {initproc : P}

omit [DecidableEq P] in
/-- Processes in different states are different. -/
theorem slot_ne {s : State P} {p q : P} {a b : ProcState} (hp : (s.slot p).state = a)
    (hq : (s.slot q).state = b) (hab : a ≠ b) : p ≠ q := by
  rintro rfl
  exact hab (hp.symm.trans hq)

section Moves

variable (calls : Call → Prop) (table : List P) (initproc : P) (s : State P)

/-- The sections of a running process `p` at its program point, with the states that they lead
to. -/
inductive Turn (p : P) : Pc P → State P → Prop
  | acquire {l k} (hfree : s.spin l = none) :
      Turn p (.acquire l k) ((s.setSpin l (some p)).goto p k)
  | release {l k} : Turn p (.release l k) ((s.setSpin l none).goto p k)
  | sleepLock {c l k} (hplock : s.plock p = false) :
      Turn p (.sleepLock c l k) ((s.setPlock p true).goto p (.sleepRelease c l k))
  | sleepRelease {c l k} :
      Turn p (.sleepRelease c l k) ((s.setSpin l none).goto p (.sleepPark c l k))
  | sleepPark {c l k} : Turn p (.sleepPark c l k)
      (((s.setSlot p { s.slot p with chan := some c, state := .sleeping }).setPlock p
        false).goto p (.sleepTidy l k))
  | sleepTidy {l k} : Turn p (.sleepTidy l k)
      (((s.setSlot p { s.slot p with chan := none }).setPlock p false).goto p (.acquire l k))
  | wakeupEnd {c k} : Turn p (.wakeup c [] k) (s.goto p k)
  | wakeupSelf {c rest k} : Turn p (.wakeup c (p :: rest) k) (s.goto p (.wakeup c rest k))
  | wakeupSlot {q c rest k} (hq : q ≠ p) (hplock : s.plock q = false) :
      Turn p (.wakeup c (q :: rest) k)
        ((s.setSlot q (wakeSlot c (s.slot q))).goto p (.wakeup c rest k))
  | yielded {k} : Turn p (.yielded k) ((s.setPlock p false).goto p k)
  | killEnd {pid} : Turn p (.kill pid []) ((s.endKill pid (-1)).goto p .run)
  | killHit {q pid rest} (hplock : s.plock q = false) (hpid : (s.slot q).pid = pid) :
      Turn p (.kill pid (q :: rest))
        (((s.setSlot q (killSlot (s.slot q))).endKill pid 0).goto p .run)
  | killNext {q pid rest} (hpid : (s.slot q).pid ≠ pid) :
      Turn p (.kill pid (q :: rest)) (s.goto p (.kill pid rest))
  | acquiresleepWait (hlocked : s.locked = true) :
      Turn p .acquiresleep (s.goto p (.sleepLock .sleeplk .sleeplk .acquiresleep))
  | acquiresleepTake (hlocked : s.locked = false) :
      Turn p .acquiresleep ({ s with
        locked := true
        lkpid := (s.slot p).pid
        held := update s.held p true }.goto p (.release .sleeplk .run))
  | releasesleep :
      Turn p .releasesleep ({ s with
        locked := false
        lkpid := 0
        held := update s.held p false }.goto p
          (.wakeup (some .sleeplk) table (.release .sleeplk .run)))
  | holdingsleep : Turn p .holdingsleep (s.goto p (.release .sleeplk .run))
  | forkEnd {fail} : Turn p (.fork fail []) (s.goto p .run)
  | forkFail {q fail rest} (hplock : s.plock q = false) (hunused : (s.slot q).state = .unused) :
      Turn p (.fork (some fail) (q :: rest))
        ({ s.setSlot q (s.slot q).freeproc with nextpid := s.nextpid + 1 }.goto p .run)
  | forkChild {q rest} (hplock : s.plock q = false) (hunused : (s.slot q).state = .unused) :
      Turn p (.fork none (q :: rest))
        (({ s.setSlot q (forkSlot none s.nextpid (s.slot p) (s.slot q)) with
          nextpid := s.nextpid + 1 }.goto q .forkret).goto p (.acquire .wait (.forkParent q)))
  | forkNext {q fail rest} (hused : (s.slot q).state ≠ .unused) :
      Turn p (.fork fail (q :: rest)) (s.goto p (.fork fail rest))
  | forkParent {np} : Turn p (.forkParent np)
      ((s.setSlot np { s.slot np with parent := some p }).goto p (.release .wait (.forkRun np)))
  | forkRun {np} (hplock : s.plock np = false) : Turn p (.forkRun np)
      ((s.setSlot np { s.slot np with state := .runnable }).goto p .run)
  | forkret : Turn p .forkret ((s.setPlock p false).goto p .run)
  | exitFiles {status} : Turn p (.exitFiles status)
      ((s.setSlot p { s.slot p with ofile := fun _ => false, cwd := false }).goto p
        (.acquire .wait (.exitReparent status table)))
  | exitReparentEnd {status} : Turn p (.exitReparent status [])
      (s.goto p (.wakeup ((s.slot p).parent.map .proc) table (.exitZombie status)))
  | exitReparentChild {q status rest} (hparent : (s.slot q).parent = some p) :
      Turn p (.exitReparent status (q :: rest))
        ((s.setSlot q { s.slot q with parent := some initproc }).goto p
          (.wakeup (some (.proc initproc)) table (.exitReparent status rest)))
  | exitReparentNext {q status rest} (hparent : (s.slot q).parent ≠ some p) :
      Turn p (.exitReparent status (q :: rest)) (s.goto p (.exitReparent status rest))
  | exitZombie {status} (hplock : s.plock p = false) : Turn p (.exitZombie status)
      ({ (s.setSlot p { s.slot p with xstate := status, state := .zombie }).setPlock p true with
        hist := { s.hist with exits := s.hist.exits ++ [((s.slot p).pid, status)] } }.goto p
          .exitRelease)
  | waitNone {addr havekids} (hnone : havekids = false ∨ (s.slot p).killed = true) :
      Turn p (.wait addr [] havekids) (s.goto p (.release .wait .run))
  | waitSleep {addr} : Turn p (.wait addr [] true)
      (s.goto p (.sleepLock (.proc p) .wait (.wait addr table false)))
  | waitFault {q rest havekids} :
      Turn p (.wait (some false) (q :: rest) havekids) (s.goto p (.release .wait .run))
  | waitReap {q addr rest havekids} (hparent : (s.slot q).parent = some p)
      (hplock : s.plock q = false) (hzombie : (s.slot q).state = .zombie) :
      Turn p (.wait addr (q :: rest) havekids)
        ({ (s.setSlot q (s.slot q).freeproc).goto q .unused with
          hist := { s.hist with reaps := s.hist.reaps ++ [reapOf p q addr (s.slot q)] } }.goto p
            (.release .wait .run))
  | waitNext {q addr rest havekids havekids'}
      (hnot : (s.slot q).parent = some p → (s.slot q).state ≠ .zombie) :
      Turn p (.wait addr (q :: rest) havekids) (s.goto p (.wait addr rest havekids'))

/-- The steps of the machine, with the states that they lead to. -/
inductive Move : State P → Prop
  | call {p c} (hrun : (s.slot p).state = .running) (hpc : s.pc p = .run)
      (hadmitted : c.admitted initproc p s) (hcalls : calls c) :
      Move (s.goto p (c.start table))
  | dispatch {p} (hst : (s.slot p).state = .runnable) (hplock : s.plock p = false) :
      Move ((s.setSlot p { s.slot p with state := .running }).setPlock p true)
  | preempt {p} (hrun : (s.slot p).state = .running) (hholds : (s.pc p).holds = none)
      (hplock : s.plock p = false) :
      Move ((s.setSlot p { s.slot p with state := .runnable }).goto p (.yielded (s.pc p)))
  | own {p n ofile killed} (hrun : (s.slot p).state = .running) (hpc : s.pc p = .run) :
      Move (s.setSlot p { s.slot p with sz := n, ofile := ofile, killed := killed })
  | turn {p k s'} (hrun : (s.slot p).state = .running) (hpc : s.pc p = k)
      (hturn : Turn table initproc s p k s') : Move s'
  | exitRelease {p} (hpc : s.pc p = .exitRelease) :
      Move ((s.setSpin .wait none).goto p .exitSched)
  | exitSched {p} (hpc : s.pc p = .exitSched) : Move ((s.setPlock p false).goto p .zombie)

end Moves

omit [DecidableEq P] in
/-- A failed fork frees the slot that it found. -/
theorem forkSlot_some (f : ForkFail) (pid : ℤ) (parent child : Slot P) :
    forkSlot (some f) pid parent child = child.freeproc := by
  cases f <;> rfl

/-- Every section is one of the turns. -/
theorem Turn.of_micro {s s' : State P} {p : P} {k : Pc P} (hpc : s.pc p = k)
    (hexit : k.exiting = false) (h : micro table initproc p s = some s') :
    Turn table initproc s p k s' := by
  unfold micro at h
  rw [hpc] at h
  cases k with
  | unused | run | zombie => simp at h
  | exitRelease | exitSched => cases hexit
  | release | sleepRelease | sleepPark | sleepTidy | yielded | releasesleep | holdingsleep
  | forkParent | forkret | exitFiles =>
    cases h
    constructor
  | acquire l k =>
    simp only [Option.ite_none_right_eq_some, Option.some.injEq] at h
    obtain ⟨hfree, rfl⟩ := h
    exact .acquire hfree
  | sleepLock | forkRun | exitZombie =>
    simp only [Option.ite_none_left_eq_some, Bool.not_eq_true, Option.some.injEq] at h
    obtain ⟨hplock, rfl⟩ := h
    constructor
    exact hplock
  | wakeup c rest k =>
    cases rest with
    | nil =>
      cases h
      exact .wakeupEnd
    | cons q rest =>
      dsimp only at h
      split at h
      · rename_i hq
        subst hq
        cases h
        exact .wakeupSelf
      · rename_i hq
        simp only [Option.ite_none_left_eq_some, Bool.not_eq_true, Option.some.injEq] at h
        obtain ⟨hplock, rfl⟩ := h
        exact .wakeupSlot hq hplock
  | kill pid rest =>
    cases rest with
    | nil =>
      cases h
      exact .killEnd
    | cons q rest =>
      simp only [Option.ite_none_left_eq_some, Bool.not_eq_true] at h
      obtain ⟨hplock, h⟩ := h
      split at h <;> rename_i hpid <;> cases h
      · exact .killHit hplock hpid
      · exact .killNext hpid
  | acquiresleep =>
    dsimp only at h
    split at h <;> rename_i hlocked <;> cases h
    · exact .acquiresleepWait hlocked
    · exact .acquiresleepTake (by simpa using hlocked)
  | fork fail rest =>
    cases rest with
    | nil =>
      cases h
      exact .forkEnd
    | cons q rest =>
      simp only [Option.ite_none_left_eq_some, Bool.not_eq_true] at h
      obtain ⟨hplock, h⟩ := h
      split at h
      · rename_i hunused
        cases fail with
        | none =>
          cases h
          exact .forkChild hplock hunused
        | some f =>
          simp only [reduceCtorEq, if_false, forkSlot_some, Option.some.injEq] at h
          subst h
          exact .forkFail hplock hunused
      · rename_i hused
        cases h
        exact .forkNext hused
  | exitReparent status rest =>
    cases rest with
    | nil =>
      cases h
      exact .exitReparentEnd
    | cons q rest =>
      dsimp only at h
      split at h <;> rename_i hparent <;> cases h
      · exact .exitReparentChild hparent
      · exact .exitReparentNext hparent
  | wait addr rest havekids =>
    cases rest with
    | nil =>
      simp only [Option.ite_none_left_eq_some] at h
      obtain ⟨-, h⟩ := h
      split at h <;> rename_i hnone <;> cases h
      · exact .waitNone (by simpa using hnone)
      · have hkids : havekids = true := by
          cases havekids
          · simp at hnone
          · rfl
        subst hkids
        exact .waitSleep
    | cons q rest =>
      dsimp only at h
      split at h
      · rename_i hparent
        simp only [Option.ite_none_left_eq_some, Bool.not_eq_true] at h
        obtain ⟨hplock, h⟩ := h
        split at h
        · rename_i hzombie
          split at h <;> rename_i haddr <;> cases h
          · subst haddr
            exact .waitFault
          · exact .waitReap hparent hplock hzombie
        · rename_i hzombie
          cases h
          exact .waitNext fun _ => hzombie
      · rename_i hparent
        cases h
        exact .waitNext fun hp => absurd hp hparent

/-- Every section is one of the moves. -/
theorem Move.of_micro {s s' : State P} {p : P}
    (hrun : (s.slot p).state = .running ∨ (s.pc p).exiting = true)
    (h : micro table initproc p s = some s') : Move calls table initproc s s' := by
  by_cases hexit : (s.pc p).exiting = true
  · unfold micro at h
    cases hpc : s.pc p <;> rw [hpc] at h hexit <;> cases hexit <;> cases h
    · exact .exitRelease hpc
    · exact .exitSched hpc
  · exact .turn (hrun.resolve_right hexit) rfl (.of_micro rfl (by simpa using hexit) h)

/-- Every step is one of the moves. -/
theorem Move.of_exec {s s' : State P} {a : Act P} (ha : ∀ p c, a = .call p c → calls c)
    (h : exec table initproc a s = some s') : Move calls table initproc s s' := by
  cases a
  all_goals simp only [exec, Option.ite_none_right_eq_some, Option.some.injEq] at h
  case call p c =>
    obtain ⟨⟨hrun, hpc, hadmitted⟩, rfl⟩ := h
    exact .call hrun hpc hadmitted (ha p c rfl)
  case step p => exact .of_micro h.1 h.2
  case dispatch p =>
    obtain ⟨⟨hst, hplock⟩, rfl⟩ := h
    exact .dispatch hst hplock
  case preempt p =>
    obtain ⟨⟨hrun, hholds, hplock⟩, rfl⟩ := h
    exact .preempt hrun hholds hplock
  case resize p n | setfd p fd b =>
    obtain ⟨⟨hrun, hpc⟩, rfl⟩ := h
    exact .own hrun hpc
  case setkilled p =>
    obtain ⟨⟨hrun, hpc, -⟩, rfl⟩ := h
    exact .own hrun hpc

/-! ### Program points -/

/-- The condition lock of a channel. -/
def Chan.lock : Chan P → Lock
  | .proc _ => .wait
  | .sleeplk => .sleeplk
  | .cond n => .cond n

/-- A point at which the process runs and does not hold its own lock. -/
def Pc.plain : Pc P → Bool
  | .unused | .zombie | .exitRelease | .exitSched | .sleepRelease _ _ _ | .sleepPark _ _ _
  | .sleepTidy _ _ | .yielded _ | .forkret => false
  | _ => true

/-- The child that a process is about to start. -/
def Pc.child : Pc P → Option P
  | .forkParent np | .forkRun np => some np
  | .acquire _ k | .release _ k | .yielded k => k.child
  | _ => none

/-- The channel that a process is about to sleep on. -/
def Pc.sleepsOn : Pc P → Option (Chan P)
  | .sleepLock c _ _ | .sleepRelease c _ _ | .sleepPark c _ _ => some c
  | _ => none

/-- The continuations that occur: what follows `acquire(l)` holds `l`, what follows
`release(l)` holds nothing, and a process sleeps with the lock of its channel. -/
def Pc.WF : Pc P → Prop
  | .acquire l k =>
    k.holds = some l ∧ (∀ c, k.sleepsOn = some c → ∃ n, c = .cond n) ∧ k.plain = true ∧ k.WF
  | .release _ k => k.holds = none ∧ k.plain = true ∧ k.WF
  | .sleepLock c l k | .sleepRelease c l k | .sleepPark c l k =>
    l = c.lock ∧ k.holds = some l ∧ k.sleepsOn = none ∧ k.child = none ∧ k.plain = true ∧ k.WF
  | .sleepTidy l k =>
    k.holds = some l ∧ k.sleepsOn = none ∧ k.child = none ∧ k.plain = true ∧ k.WF
  | .wakeup c _ k =>
    (∀ d, c = some d → k.holds = some d.lock) ∧ k.sleepsOn = none ∧ k.child = none ∧
      k.plain = true ∧ k.WF
  | .yielded k => k.holds = none ∧ k.plain = true ∧ k.WF
  | _ => True

/-- The states that a process can have at a program point, with whether it holds its own
lock. -/
def Pc.fits (st : ProcState) (plock : Bool) : Pc P → Prop
  | .unused => st = .unused ∧ plock = false
  | .zombie => st = .zombie ∧ plock = false
  | .exitRelease | .exitSched => st = .zombie ∧ plock = true
  | .sleepRelease _ _ _ | .sleepPark _ _ _ => st = .running ∧ plock = true
  | .sleepTidy _ _ =>
    st = .running ∧ plock = true ∨ (st = .sleeping ∨ st = .runnable) ∧ plock = false
  | .yielded _ => st = .running ∧ plock = true ∨ st = .runnable ∧ plock = false
  | .forkret => st = .running ∧ plock = true ∨ (st = .used ∨ st = .runnable) ∧ plock = false
  | _ => st = .running ∧ plock = false

omit [DecidableEq P] in
/-- At a plain point the process runs. -/
theorem Pc.fits_plain {k : Pc P} {st : ProcState} {b : Bool} (hk : k.plain = true) :
    k.fits st b ↔ st = .running ∧ b = false := by
  cases k <;> simp_all [Pc.plain, Pc.fits]

/-- What the program points of all processes say about the locks and the table. -/
structure Local (s : State P) : Prop where
  wf : ∀ p, (s.pc p).WF
  fits : ∀ p, (s.pc p).fits (s.slot p).state (s.plock p)
  spin : ∀ l p, s.spin l = some p ↔ (s.pc p).holds = some l
  child : ∀ p np, (s.pc p).child = some np → (s.slot np).state = .used
  apart : ∀ p q np, (s.pc p).child = some np → (s.pc q).child = some np → p = q

namespace Local

variable {s s' : State P} {p : P} {j k : Pc P}

omit [DecidableEq P] in
/-- `Local` reads the program counters, the locks and the states. -/
theorem congr (h : Local s) (hpc : s'.pc = s.pc)
    (hst : ∀ q, (s'.slot q).state = (s.slot q).state) (hplock : s'.plock = s.plock)
    (hspin : s'.spin = s.spin) : Local s' where
  wf q := by rw [hpc]; exact h.wf q
  fits q := by rw [hpc, hst, hplock]; exact h.fits q
  spin l q := by rw [hpc, hspin]; exact h.spin l q
  child q np := by rw [hpc, hst]; exact h.child q np
  apart q r np := by rw [hpc]; exact h.apart q r np

omit [DecidableEq P] in
/-- A step that changes the program counter, the state and the locks of one process only. -/
theorem self (h : Local s) (hpc : ∀ q, q ≠ p → s'.pc q = s.pc q)
    (hst : ∀ q, q ≠ p → (s'.slot q).state = (s.slot q).state)
    (hplock : ∀ q, q ≠ p → s'.plock q = s.plock q)
    (hspin : ∀ l, s'.spin l = s.spin l ∨ (s.spin l = none ∧ s'.spin l = some p) ∨
      (s.spin l = some p ∧ s'.spin l = none))
    (hwf : (s'.pc p).WF) (hfits : (s'.pc p).fits (s'.slot p).state (s'.plock p))
    (hholds : ∀ l, s'.spin l = some p ↔ (s'.pc p).holds = some l)
    (hkid : ∀ q, (s.pc q).child ≠ some p)
    (hchild : ∀ np, (s'.pc p).child = some np → np ≠ p ∧ ((s.pc p).child = some np ∨
      (s.slot np).state = .used ∧ ∀ q, (s.pc q).child ≠ some np)) : Local s' := by
  refine ⟨fun q => ?_, fun q => ?_, fun l q => ?_, fun q np hq => ?_, fun q r np hq hr => ?_⟩
  · by_cases hqp : q = p
    · rw [hqp]; exact hwf
    · rw [hpc q hqp]; exact h.wf q
  · by_cases hqp : q = p
    · rw [hqp]; exact hfits
    · rw [hpc q hqp, hst q hqp, hplock q hqp]; exact h.fits q
  · by_cases hqp : q = p
    · rw [hqp]; exact hholds l
    · rw [hpc q hqp, ← h.spin l q]
      rcases hspin l with heq | ⟨hnone, hsome⟩ | ⟨hsome, hnone⟩
      · rw [heq]
      · rw [hnone, hsome]; simp [Ne.symm hqp]
      · rw [hnone, hsome]; simp [Ne.symm hqp]
  · by_cases hqp : q = p
    · subst hqp
      obtain ⟨hne, hold | ⟨hused, -⟩⟩ := hchild np hq
      · rw [hst np hne]; exact h.child q np hold
      · rw [hst np hne]; exact hused
    · rw [hpc q hqp] at hq
      have hne : np ≠ p := by
        rintro rfl
        exact hkid q hq
      rw [hst np hne]
      exact h.child q np hq
  · have hcase : ∀ q, q ≠ p → (s'.pc q).child = some np → (s'.pc p).child ≠ some np := by
      intro q hqp hq hp
      rw [hpc q hqp] at hq
      obtain ⟨-, hold | ⟨-, hfresh⟩⟩ := hchild np hp
      · exact hqp (h.apart q p np hq hold)
      · exact hfresh q hq
    by_cases hqp : q = p <;> by_cases hrp : r = p
    · rw [hqp, hrp]
    · subst hqp
      exact absurd hq (hcase r hrp hr)
    · subst hrp
      exact absurd hr (hcase q hqp hq)
    · rw [hpc q hqp] at hq
      rw [hpc r hrp] at hr
      exact h.apart q r np hq hr

omit [DecidableEq P] in
/-- A process that is not being forked is nobody's child to start. -/
theorem no_kid (h : Local s) (hst : (s.slot p).state ≠ .used) (q : P) :
    (s.pc q).child ≠ some p :=
  fun hq => hst (h.child q p hq)

/-- One process moves on, with the locks of the table as they were. -/
theorem along (h : Local s) (hst : (s.slot p).state ≠ .used) {t : Slot P} {b : Bool}
    (hj : s.pc p = j) (hpc : s'.pc = update s.pc p k)
    (hslot : s'.slot = update s.slot p t)
    (hplock : s'.plock = update s.plock p b) (hspin : s'.spin = s.spin) (hwf : k.WF)
    (hfits : k.fits t.state b) (hholds : k.holds = j.holds)
    (hchild : ∀ np, k.child = some np → j.child = some np) : Local s' := by
  subst hj
  have hself : s'.pc p = k := by rw [hpc, update_self]
  refine h.self (p := p) (fun q hq => by rw [hpc, update_of_ne hq])
    (fun q hq => by rw [hslot, update_of_ne hq])
    (fun q hq => by rw [hplock, update_of_ne hq]) (fun _ => .inl (by rw [hspin]))
    (by rw [hself]; exact hwf) ?_ (fun l => ?_) (h.no_kid hst) fun np hnp => ?_
  · rw [hself, hslot, hplock, update_self, update_self]
    exact hfits
  · rw [hself, hspin, hholds]
    exact h.spin l p
  · rw [hself] at hnp
    have hold := hchild np hnp
    refine ⟨?_, .inl hold⟩
    rintro rfl
    exact h.no_kid hst _ hold

/-- A running process moves on to a plain point that holds the same lock. -/
theorem goto (h : Local s) (hrun : (s.slot p).state = .running) (hpc : s.pc p = j)
    (hj : j.plain = true) (hk : k.plain = true) (hwf : k.WF) (hholds : k.holds = j.holds)
    (hchild : ∀ np, k.child = some np → j.child = some np) : Local (s.goto p k) := by
  have hfits := h.fits p
  rw [hpc, Pc.fits_plain hj] at hfits
  exact h.along (by simp [hrun]) hpc rfl (update_eq_self ..).symm
    (update_eq_self ..).symm rfl hwf ((Pc.fits_plain hk).mpr hfits) hholds hchild

/-- A process takes a free spinlock, or gives up the one it holds. -/
theorem relock (h : Local s) (hst : (s.slot p).state ≠ .used) (hpc : s.pc p = j) {l : Lock}
    {x : Option P}
    (hx : j.holds = none ∧ s.spin l = none ∧ x = some p ∧ k.holds = some l ∨
      j.holds = some l ∧ x = none ∧ k.holds = none)
    (hwf : k.WF) (hfits : k.fits (s.slot p).state (s.plock p))
    (hchild : ∀ np, k.child = some np → j.child = some np) :
    Local ((s.setSpin l x).goto p k) := by
  have hspin := fun l' => h.spin l' p
  rw [hpc] at hspin
  refine h.self (p := p) (fun q hq => by simp [hq]) (fun _ _ => rfl) (fun _ _ => rfl)
    (fun l' => ?_) (by simpa using hwf) (by simpa using hfits) (fun l' => ?_) (h.no_kid hst)
    fun np hnp => ?_
  · by_cases hl : l' = l
    · subst hl
      rcases hx with ⟨-, hfree, rfl, -⟩ | ⟨hold, rfl, -⟩
      · exact .inr (.inl ⟨hfree, by simp⟩)
      · exact .inr (.inr ⟨(hspin l').mpr hold, by simp⟩)
    · exact .inl (by simp [hl])
  · by_cases hl : l' = l
    · subst hl
      rcases hx with ⟨-, -, rfl, hnew⟩ | ⟨-, rfl, hnew⟩ <;> simp [hnew]
    · rcases hx with ⟨hold, -, -, hnew⟩ | ⟨hold, -, hnew⟩ <;>
        simp [hl, hspin l', hold, hnew, Ne.symm hl]
  · have hnp : k.child = some np := by simpa using hnp
    have hold : (s.pc p).child = some np := by
      rw [hpc]
      exact hchild np hnp
    refine ⟨?_, .inl hold⟩
    rintro rfl
    exact h.no_kid hst _ hold

omit [DecidableEq P] in
/-- A sleeping process stands where it will tidy up, and its lock is free. -/
theorem sleeping (h : Local s) (hst : (s.slot p).state = .sleeping) :
    ∃ l k, s.pc p = .sleepTidy l k := by
  have hfits := h.fits p
  rw [hst] at hfits
  cases hpc : s.pc p <;> simp_all [Pc.fits]

/-- A sleeping process may be made runnable. -/
theorem wake (h : Local s) {t : Slot P} (hst : (s.slot p).state = .sleeping)
    (ht : t.state = .runnable) : Local (s.setSlot p t) := by
  obtain ⟨l, k, hpc⟩ := h.sleeping hst
  have hfits := h.fits p
  rw [hpc, hst] at hfits
  refine h.along (by simp [hst]) rfl (update_eq_self ..).symm rfl
    (update_eq_self ..).symm rfl (h.wf p) ?_ rfl fun _ => id
  change (s.pc p).fits t.state (s.plock p)
  rw [hpc]
  exact .inr ⟨.inr ht, by simpa [Pc.fits] using hfits⟩

/-- Changing a slot but not its state. -/
theorem setSlot (h : Local s) {t : Slot P} (ht : t.state = (s.slot p).state) :
    Local (s.setSlot p t) := by
  refine h.congr rfl (fun q => ?_) rfl rfl
  by_cases hq : q = p
  · subst hq; simp [ht]
  · simp [hq]

omit [DecidableEq P] in
/-- A process at a plain point runs and does not hold its own lock. -/
theorem plain (h : Local s) (hpc : s.pc p = k) (hk : k.plain = true) :
    (s.slot p).state = .running ∧ s.plock p = false := by
  have hfits := h.fits p
  rwa [hpc, Pc.fits_plain hk] at hfits

omit [DecidableEq P] in
/-- A process that holds no lock is the holder of none. -/
theorem spin_none (h : Local s) (hpc : (s.pc p).holds = none) (l : Lock) :
    s.spin l ≠ some p := by
  rw [Ne, h.spin l p, hpc]
  simp

omit [DecidableEq P] in
/-- A zombie whose lock is free has left `sched`. -/
theorem zombie (h : Local s) (hst : (s.slot p).state = .zombie) (hplock : s.plock p = false) :
    s.pc p = .zombie := by
  have hfits := h.fits p
  rw [hst, hplock] at hfits
  cases hpc : s.pc p <;> simp_all [Pc.fits]

omit [DecidableEq P] in
/-- Every call starts at a well-formed point that holds nothing. -/
theorem start (table : List P) (c : Call) : (c.start table).WF ∧ (c.start table).plain = true ∧
    (c.start table).holds = none ∧ (c.start table).child = none := by
  cases c <;>
    simp [Call.start, Pc.WF, Pc.plain, Pc.holds, Pc.child, Pc.sleepsOn, Chan.lock]

/-- A new child: it becomes a process first, then its parent goes on. -/
theorem forkChild (h : Local s) {q : P} {rest : List P} (hrun : (s.slot p).state = .running)
    (hpc : s.pc p = .fork none (q :: rest)) (hplock : s.plock q = false)
    (hunused : (s.slot q).state = .unused) {t : Slot P} (ht : t.state = .used) {n : ℤ} :
    Local (({ s.setSlot q t with nextpid := n }.goto q .forkret).goto p
      (.acquire .wait (.forkParent q))) := by
  have hqp : p ≠ q := slot_ne hrun hunused (by decide)
  have hkid := h.no_kid (p := q) (by simp [hunused])
  have hholds : (s.pc q).holds = none := by
    have hfits := h.fits q
    rw [hunused] at hfits
    cases hpcq : s.pc q <;> simp_all [Pc.fits, Pc.holds]
  have hnext : Local ({ s.setSlot q t with nextpid := n }.goto q .forkret) :=
    h.along (p := q) (by simp [hunused]) rfl rfl rfl (update_eq_self ..).symm rfl trivial
      (by simp [Pc.fits, ht, hplock]) hholds.symm (by simp [Pc.child])
  refine hnext.self (p := p) (fun r hr => by simp [hr]) (fun _ _ => rfl) (fun _ _ => rfl)
    (fun _ => .inl rfl) (by simp [Pc.WF, Pc.holds, Pc.plain, Pc.sleepsOn])
    (by simpa [Pc.fits, hqp] using h.plain hpc rfl) (fun l => ?_)
    (hnext.no_kid (by simp [hqp, hrun])) fun np hnp => ?_
  · simpa [Pc.holds] using h.spin_none (p := p) (by rw [hpc]; rfl) l
  · have hnp : q = np := by simpa [Pc.child] using hnp
    subst hnp
    refine ⟨hqp.symm, .inr ⟨by simp [ht], fun r => ?_⟩⟩
    by_cases hr : r = q
    · subst hr; simp [Pc.child]
    · simpa [hr] using hkid r

/-- The child of a fork is made runnable: only its parent was about to start it. -/
theorem forkRun (h : Local s) {np : P} (hrun : (s.slot p).state = .running)
    (hpc : s.pc p = .forkRun np) (hplock : s.plock np = false) :
    Local ((s.setSlot np { s.slot np with state := .runnable }).goto p .run) := by
  have hchild : (s.pc p).child = some np := by rw [hpc]; rfl
  have hused := h.child p np hchild
  have hne : np ≠ p := slot_ne hused hrun (by decide)
  have hforkret : s.pc np = .forkret := by
    have hfits := h.fits np
    rw [hused] at hfits
    cases hpcn : s.pc np <;> simp_all [Pc.fits]
  have hnext : Local (s.goto p .run) :=
    h.goto hrun hpc rfl rfl trivial rfl (by simp [Pc.child])
  refine hnext.self (p := np) (fun _ _ => rfl) (fun r hr => by simp [hr]) (fun _ _ => rfl)
    (fun _ => .inl rfl) (by simp [hne, hforkret, Pc.WF])
    (by simp [hne, hforkret, Pc.fits, hplock])
    (fun l => by simpa [hne, hforkret, Pc.holds] using h.spin l np) (fun r hr => ?_)
    (by simp [hne, hforkret, Pc.child])
  by_cases hrp : r = p
  · subst hrp; simp [Pc.child] at hr
  · have hr : (s.pc r).child = some np := by simpa [hrp] using hr
    exact hrp (h.apart r p np hr hchild)

/-- A running process keeps `Local` at each of its program points. -/
theorem turn (h : Local s) (hrun : (s.slot p).state = .running) (hpc : s.pc p = k)
    (hturn : Turn table initproc s p k s') : Local s' := by
  have hwf := h.wf p
  have hfits := h.fits p
  have hst : (s.slot p).state ≠ .used := by simp [hrun]
  have hplock : s.plock = update s.plock p (s.plock p) :=
    (update_eq_self ..).symm
  have hslot : s.slot = update s.slot p (s.slot p) := (update_eq_self ..).symm
  rw [hpc] at hwf hfits
  cases hturn with
  | acquire hfree =>
    obtain ⟨hholds, -, hplain, hwf⟩ := hwf
    exact h.relock hst hpc (.inl ⟨rfl, hfree, rfl, hholds⟩) hwf ((Pc.fits_plain hplain).mpr hfits)
      fun _ => id
  | release =>
    obtain ⟨hholds, hplain, hwf⟩ := hwf
    exact h.relock hst hpc (.inr ⟨rfl, rfl, hholds⟩) hwf ((Pc.fits_plain hplain).mpr hfits)
      fun _ => id
  | sleepLock => exact h.along hst hpc rfl hslot rfl rfl hwf ⟨hrun, rfl⟩ rfl fun _ => id
  | sleepRelease => exact h.relock hst hpc (.inr ⟨rfl, rfl, rfl⟩) hwf hfits fun _ => id
  | sleepPark =>
    exact h.along hst hpc rfl rfl rfl rfl hwf.2 (.inr ⟨.inl rfl, rfl⟩) rfl fun _ => id
  | sleepTidy =>
    exact h.along hst hpc rfl rfl rfl rfl ⟨hwf.1, by simp [hwf.2.1], hwf.2.2.2⟩ ⟨hrun, rfl⟩ rfl
      (by simp [Pc.child, hwf.2.2.1])
  | wakeupEnd =>
    obtain ⟨-, -, hchild, hplain, hwf⟩ := hwf
    exact h.goto hrun hpc rfl hplain hwf rfl (by simp [hchild])
  | wakeupSelf => exact h.goto hrun hpc rfl rfl hwf rfl fun _ => id
  | @wakeupSlot q c rest k hq =>
    have hslot : Local (s.setSlot q (wakeSlot c (s.slot q))) := by
      unfold wakeSlot
      split_ifs with hst
      · exact h.wake hst.1 rfl
      · exact h.setSlot rfl
    exact hslot.goto (by simp [Ne.symm hq, hrun]) hpc rfl rfl hwf rfl fun _ => id
  | yielded =>
    exact h.along hst hpc rfl hslot rfl rfl hwf.2.2 ((Pc.fits_plain hwf.2.1).mpr ⟨hrun, rfl⟩)
      hwf.1 fun _ => id
  | @killHit q pid rest =>
    have hslot : Local (s.setSlot q (killSlot (s.slot q))) := by
      by_cases hst : (s.slot q).state = .sleeping
      · exact h.wake hst (by simp [killSlot, hst])
      · exact h.setSlot (by simp [killSlot, hst])
    have hstate : ((s.setSlot q (killSlot (s.slot q))).slot p).state = .running := by
      by_cases hq : p = q
      · subst hq; simp [killSlot, hrun]
      · simp [hq, hrun]
    have hnext : Local ((s.setSlot q (killSlot (s.slot q))).endKill pid 0) :=
      hslot.congr rfl (fun _ => rfl) rfl rfl
    exact hnext.goto hstate hpc rfl rfl trivial rfl fun _ => id
  | @killEnd pid =>
    have hnext : Local (s.endKill pid (-1)) := h.congr rfl (fun _ => rfl) rfl rfl
    exact hnext.goto hrun hpc rfl rfl trivial rfl fun _ => id
  | acquiresleepTake =>
    exact h.along hst hpc rfl hslot hplock rfl ⟨rfl, rfl, trivial⟩ hfits rfl fun _ => id
  | releasesleep =>
    exact h.along hst hpc rfl hslot hplock rfl
      (by simp [Pc.WF, Pc.holds, Pc.plain, Pc.child, Pc.sleepsOn, Chan.lock]) hfits rfl fun _ => id
  | @forkFail q _ _ _ hunused =>
    have hslot : Local { s.setSlot q (s.slot q).freeproc with nextpid := s.nextpid + 1 } :=
      (h.setSlot (p := q) (t := (s.slot q).freeproc) (by simp [Slot.freeproc, hunused])).congr rfl
        (fun _ => rfl) rfl rfl
    have hqp : p ≠ q := slot_ne hrun hunused (by decide)
    exact hslot.goto (by simp [hqp, hrun]) hpc rfl rfl trivial rfl fun _ => id
  | forkChild hplock hunused => exact h.forkChild hrun hpc hplock hunused rfl
  | @forkParent np =>
    have hslot : Local (s.setSlot np { s.slot np with parent := some p }) := h.setSlot rfl
    have hne : p ≠ np := by
      rintro rfl
      exact h.no_kid hst p (by rw [hpc]; rfl)
    exact hslot.goto (by simp [hne, hrun]) hpc rfl rfl ⟨rfl, rfl, trivial⟩ rfl fun _ => id
  | forkRun hplock => exact h.forkRun hrun hpc hplock
  | forkret => exact h.along hst hpc rfl hslot rfl rfl trivial ⟨hrun, rfl⟩ rfl fun _ => id
  | exitFiles =>
    exact h.along hst hpc rfl rfl hplock rfl
      (by simp [Pc.WF, Pc.holds, Pc.plain, Pc.sleepsOn]) hfits rfl fun _ => id
  | exitReparentEnd =>
    refine h.goto hrun hpc rfl rfl ⟨fun d hd => ?_, rfl, rfl, rfl, trivial⟩ rfl fun _ => id
    obtain ⟨q, -, rfl⟩ := Option.map_eq_some_iff.mp hd
    rfl
  | @exitReparentChild q =>
    have hslot : Local (s.setSlot q { s.slot q with parent := some initproc }) := h.setSlot rfl
    have hstate : ((s.setSlot q { s.slot q with parent := some initproc }).slot p).state =
        .running := by
      by_cases hq : p = q
      · subst hq; simp [hrun]
      · simp [hq, hrun]
    exact hslot.goto hstate hpc rfl rfl
      (by simp [Pc.WF, Pc.holds, Pc.plain, Pc.child, Pc.sleepsOn, Chan.lock]) rfl fun _ => id
  | exitZombie => exact h.along hst hpc rfl rfl rfl rfl trivial ⟨rfl, rfl⟩ rfl fun _ => id
  | @waitReap q _ _ _ _ hplock hzombie =>
    have hqp : p ≠ q := slot_ne hrun hzombie (by decide)
    have hnext : Local ((s.setSlot q (s.slot q).freeproc).goto q .unused) :=
      h.along (by simp [hzombie]) (h.zombie hzombie hplock) rfl rfl
        (update_eq_self ..).symm rfl trivial ⟨rfl, hplock⟩ rfl fun _ => id
    exact (hnext.goto (k := .release .wait .run) (by simp [hqp, hrun])
      ((update_of_ne hqp _ _).trans hpc) rfl rfl ⟨rfl, rfl, trivial⟩ rfl
      fun _ => id).congr rfl (fun _ => rfl) rfl rfl
  | killNext | holdingsleep | forkEnd | forkNext | exitReparentNext | waitNone | waitFault
  | waitNext | waitSleep | acquiresleepWait =>
    exact h.goto hrun hpc rfl rfl
      (by simp [Pc.WF, Pc.holds, Pc.plain, Pc.child, Pc.sleepsOn, Chan.lock]) rfl fun _ => id

/-- Every move keeps `Local`. -/
theorem move (h : Local s) (hmove : Move calls table initproc s s') : Local s' := by
  cases hmove with
  | @call p c hrun hpc =>
    obtain ⟨hwf, hplain, hholds, hchild⟩ := start table c
    exact h.goto hrun hpc rfl hplain hwf hholds (by simp [hchild])
  | @dispatch p hst hplock =>
    have hfits := h.fits p
    rw [hst, hplock] at hfits
    refine h.along (by simp [hst]) rfl (update_eq_self ..).symm rfl rfl rfl (h.wf p) ?_
      rfl fun _ => id
    cases hpc : s.pc p <;> simp_all [Pc.fits]
  | @preempt p hrun hholds hplock =>
    have hfits := h.fits p
    have hplain : (s.pc p).plain = true := by
      rw [hrun, hplock] at hfits
      cases hpc : s.pc p <;> simp_all [Pc.fits, Pc.plain]
    exact h.along (by simp [hrun]) rfl rfl rfl (update_eq_self ..).symm rfl
      ⟨hholds, hplain, h.wf p⟩ (.inr ⟨rfl, hplock⟩) hholds.symm fun _ => id
  | own hrun => exact h.setSlot rfl
  | turn hrun hpc hturn => exact h.turn hrun hpc hturn
  | @exitRelease p hpc =>
    have hfits := h.fits p
    rw [hpc] at hfits
    exact h.relock (by simp [hfits.1]) hpc (.inr ⟨rfl, rfl, rfl⟩) trivial hfits fun _ => id
  | @exitSched p hpc =>
    have hfits := h.fits p
    rw [hpc] at hfits
    exact h.along (by simp [hfits.1]) hpc rfl (update_eq_self ..).symm rfl rfl trivial
      ⟨hfits.1, rfl⟩ rfl fun _ => id

/-- After `userinit` only `initproc` exists. -/
theorem boot : Local (State.boot initproc) := by
  refine ⟨fun p => ?_, fun p => ?_, fun l p => ?_, fun p np hp => ?_, fun p q np hp => ?_⟩
  · by_cases hp : p = initproc <;> simp [State.boot, hp, Pc.WF]
  · by_cases hp : p = initproc <;> simp [State.boot, hp, Pc.fits, Slot.zero]
  · by_cases hp : p = initproc <;> simp [State.boot, hp, Pc.holds]
  · by_cases hpi : p = initproc <;> simp [State.boot, hpi, Pc.child] at hp
  · by_cases hpi : p = initproc <;> simp [State.boot, hpi, Pc.child] at hp

end Local

/-! ### Pids -/

/-- Every process has a pid of its own. -/
structure Pids (s : State P) : Prop where
  pos : 0 < s.nextpid
  lt : ∀ p, (s.slot p).state ≠ .unused → 0 < (s.slot p).pid ∧ (s.slot p).pid < s.nextpid
  inj : ∀ p q, (s.slot p).state ≠ .unused → (s.slot q).state ≠ .unused →
    (s.slot p).pid = (s.slot q).pid → p = q

namespace Pids

variable {s s' : State P}

omit [DecidableEq P] in
/-- A step after which no other slot is in use and every slot in use has its old pid. -/
theorem frame (h : Pids s) (hpid : s.nextpid ≤ s'.nextpid)
    (hslot : ∀ q, (s'.slot q).state ≠ .unused →
      (s.slot q).state ≠ .unused ∧ (s'.slot q).pid = (s.slot q).pid) : Pids s' where
  pos := lt_of_lt_of_le h.pos hpid
  lt p hp := by
    obtain ⟨hp, heq⟩ := hslot p hp
    have := h.lt p hp
    rw [heq]
    omega
  inj p q hp hq heq := by
    obtain ⟨hp, hpp⟩ := hslot p hp
    obtain ⟨hq, hqq⟩ := hslot q hq
    exact h.inj p q hp hq (by rw [← hpp, ← hqq, heq])

/-- A slot in use that keeps its pid, or goes out of use. -/
theorem at_slot {x : P} {t : Slot P} (ht : t.state ≠ .unused →
    (s.slot x).state ≠ .unused ∧ t.pid = (s.slot x).pid) (q : P)
    (hq : (update s.slot x t q).state ≠ .unused) :
    (s.slot q).state ≠ .unused ∧ (update s.slot x t q).pid = (s.slot q).pid := by
  by_cases hqx : q = x
  · subst hqx
    rw [update_self] at hq ⊢
    exact ht hq
  · rw [update_of_ne hqx] at hq ⊢
    exact ⟨hq, rfl⟩

/-- The child of a fork gets the next pid. -/
theorem child (h : Pids s) {q : P} {t : Slot P} (hpid : t.pid = s.nextpid)
    (hslot : s'.slot = update s.slot q t) (hnext : s'.nextpid = s.nextpid + 1) :
    Pids s' := by
  have hpos := h.pos
  have hold : ∀ p, p ≠ q → (s'.slot p) = s.slot p := fun p hp => by
    rw [hslot, update_of_ne hp]
  have hnew : (s'.slot q).pid = s.nextpid := by rw [hslot, update_self, hpid]
  refine ⟨by omega, fun p hp => ?_, fun p r hp hr heq => ?_⟩
  · by_cases hpq : p = q
    · subst hpq; omega
    · rw [hold p hpq] at hp ⊢
      have := h.lt p hp
      omega
  · by_cases hpq : p = q <;> by_cases hrq : r = q
    · rw [hpq, hrq]
    · subst hpq
      rw [hold r hrq] at hr heq
      have := h.lt r hr
      omega
    · subst hrq
      rw [hold p hpq] at hp heq
      have := h.lt p hp
      omega
    · rw [hold p hpq] at hp heq
      rw [hold r hrq] at hr heq
      exact h.inj p r hp hr heq

/-- Every move keeps the pids apart. -/
theorem move (h : Pids s) (hlocal : Local s) (hmove : Move calls table initproc s s') :
    Pids s' := by
  have hsame : ∀ q, (s.slot q).state ≠ .unused →
      (s.slot q).state ≠ .unused ∧ (s.slot q).pid = (s.slot q).pid := fun _ hq => ⟨hq, rfl⟩
  cases hmove with
  | dispatch hst => exact h.frame le_rfl (at_slot fun _ => ⟨by simp [hst], rfl⟩)
  | preempt hrun => exact h.frame le_rfl (at_slot fun _ => ⟨by simp [hrun], rfl⟩)
  | own hrun => exact h.frame le_rfl (at_slot fun hst => ⟨hst, rfl⟩)
  | @turn p _ _ hrun hpc hturn =>
    cases hturn with
    | sleepPark | exitZombie => exact h.frame le_rfl (at_slot fun _ => ⟨by simp [hrun], rfl⟩)
    | sleepTidy | forkParent | exitFiles | exitReparentChild =>
      exact h.frame le_rfl (at_slot fun hst => ⟨hst, rfl⟩)
    | wakeupSlot =>
      refine h.frame le_rfl (at_slot fun hst => ?_)
      unfold wakeSlot at hst ⊢
      split_ifs at hst ⊢ with hboth
      · exact ⟨by simp [hboth.1], rfl⟩
      · exact ⟨hst, rfl⟩
    | killHit =>
      refine h.frame le_rfl (at_slot fun hst => ⟨fun hunused => hst ?_, rfl⟩)
      simp [killSlot, hunused]
    | forkFail => exact h.frame (Int.le_add_one le_rfl) (at_slot (by simp [Slot.freeproc]))
    | forkChild => exact h.child (by simp [forkSlot]) rfl rfl
    | @forkRun np =>
      have hused := hlocal.child p np (by rw [hpc]; rfl)
      exact h.frame le_rfl (at_slot fun _ => ⟨by simp [hused], rfl⟩)
    | waitReap => exact h.frame le_rfl (at_slot (by simp [Slot.freeproc]))
    | _ => exact h.frame le_rfl hsame
  | _ => exact h.frame le_rfl hsame

/-- `initproc` has the first pid. -/
theorem boot : Pids (State.boot initproc) := by
  have hslot : ∀ p, ((State.boot initproc).slot p).state ≠ .unused → p = initproc := by
    intro p hp
    by_contra hne
    simp [State.boot, hne, Slot.zero] at hp
  refine ⟨by simp [State.boot], fun p hp => ?_, fun p q hp hq _ => ?_⟩
  · rw [hslot p hp]
    simp [State.boot]
  · rw [hslot p hp, hslot q hq]

end Pids

/-- A property of the initial state that every move keeps holds in every run. -/
theorem ReachableBy.induct {I : State P → Prop} (hboot : I (.boot initproc))
    (hmove : ∀ s s', Local s → Pids s → I s → Move calls table initproc s s' → I s') {s : State P}
    (h : ReachableBy calls table initproc s) : Local s ∧ Pids s ∧ I s := by
  induction h with
  | boot => exact ⟨Local.boot, Pids.boot, hboot⟩
  | step a _ ha hexec ih =>
    obtain ⟨hlocal, hpids, hI⟩ := ih
    have hm := Move.of_exec ha hexec
    exact ⟨hlocal.move hm, hpids.move hlocal hm, hmove _ _ hlocal hpids hI hm⟩

end RiscvKernel.Sched
