import Mathlib.Logic.Function.Basic
import Mathlib.Data.Int.Notation
import Mathlib.Data.Set.Basic

/-!
# The process table

The functions of `proc.c` that change the process table, and the sleep-locks of
`sleeplock.c`, as a machine in which every process has its own program counter. A step is a
critical section of one `p->lock`, or the part of a longer critical section between two
lock operations: `sleep` and `kexit` hold `p->lock` while they release another lock, and
`wakeup`, `kkill`, `allocproc` and `kwait` take the lock of every slot in turn. The
scheduler of any number of CPUs may dispatch a runnable process at any time, and a process
that holds no spinlock may be preempted at any time.

User memory, files and the kernel stack appear in a slot only as far as `freeproc` and
`kexit` clear them.
-/

namespace RiscvKernel.Sched

open Function

/-- `enum procstate`. -/
inductive ProcState : Type
  | unused
  | used
  | sleeping
  | runnable
  | running
  | zombie
  deriving DecidableEq, Repr

/-- The spinlocks that a process can sleep with: `wait_lock`, the inner lock `lk->lk` of the
sleep-lock, and the condition locks of other subsystems. -/
inductive Lock : Type
  | wait
  | sleeplk
  | cond (n : ℕ)
  deriving DecidableEq, Repr

/-- The channels: a process, the sleep-lock, and the channels of other subsystems. -/
inductive Chan (P : Type) : Type
  | proc (p : P)
  | sleeplk
  | cond (n : ℕ)
  deriving DecidableEq, Repr

/-- `struct proc`. A pointer whose target is not modelled is represented by whether it is
null. -/
structure Slot (P : Type) where
  state : ProcState
  chan : Option (Chan P)
  killed : Bool
  xstate : ℤ
  pid : ℤ
  parent : Option P
  sz : ℕ
  pagetable : Bool
  trapframe : Bool
  ofile : ℕ → Bool
  cwd : Bool

/-- A slot that has never been used. -/
def Slot.zero {P : Type} : Slot P where
  state := .unused
  chan := none
  killed := false
  xstate := 0
  pid := 0
  parent := none
  sz := 0
  pagetable := false
  trapframe := false
  ofile := fun _ => false
  cwd := false

/-- `freeproc`. It does not touch the open files and the current directory. -/
def Slot.freeproc {P : Type} (t : Slot P) : Slot P :=
  { t with
    trapframe := false
    pagetable := false
    sz := 0
    pid := 0
    parent := none
    chan := none
    killed := false
    xstate := 0
    state := .unused }

/-- Where a fork runs out of memory: `kalloc` of the trapframe, `proc_pagetable`, or
`uvmcopy`. -/
inductive ForkFail : Type
  | trapframe
  | pagetable
  | uvmcopy
  deriving DecidableEq, Repr

/-- What a process does next. The argument `k` of a constructor is what comes after; `rest`
is the part of the table that a loop has still to visit. -/
inductive Pc (P : Type) : Type
  /-- The slot has no process. -/
  | unused
  /-- Outside of the functions modelled here. -/
  | run
  /-- `acquire(l)`. -/
  | acquire (l : Lock) (k : Pc P)
  /-- `release(l)`. -/
  | release (l : Lock) (k : Pc P)
  /-- `sleep`: `acquire(&p->lock)`. -/
  | sleepLock (c : Chan P) (l : Lock) (k : Pc P)
  /-- `sleep`: `release(lk)`. -/
  | sleepRelease (c : Chan P) (l : Lock) (k : Pc P)
  /-- `sleep`: go to sleep and call `sched`. -/
  | sleepPark (c : Chan P) (l : Lock) (k : Pc P)
  /-- `sleep`: back from `sched`, tidy up and `release(&p->lock)`. -/
  | sleepTidy (l : Lock) (k : Pc P)
  /-- The loop of `wakeup`. -/
  | wakeup (c : Option (Chan P)) (rest : List P) (k : Pc P)
  /-- `yield`: back from `sched`, `release(&p->lock)`. -/
  | yielded (k : Pc P)
  /-- The loop of `kkill`. -/
  | kill (pid : ℤ) (rest : List P)
  /-- The loop of `acquiresleep`. -/
  | acquiresleep
  /-- `releasesleep` after its `acquire`. -/
  | releasesleep
  /-- `holdingsleep` after its `acquire`. -/
  | holdingsleep
  /-- `kfork` in the loop of `allocproc`. -/
  | fork (fail : Option ForkFail) (rest : List P)
  /-- `kfork`: set the parent of the child. -/
  | forkParent (np : P)
  /-- `kfork`: make the child runnable. -/
  | forkRun (np : P)
  /-- The start of a child. -/
  | forkret
  /-- `kexit`: close the files. -/
  | exitFiles (status : ℤ)
  /-- `kexit` in the loop of `reparent`. -/
  | exitReparent (status : ℤ) (rest : List P)
  /-- `kexit`: `acquire(&p->lock)` and become a zombie. -/
  | exitZombie (status : ℤ)
  /-- `kexit`: `release(&wait_lock)`. -/
  | exitRelease
  /-- `kexit`: the last `sched`. -/
  | exitSched
  /-- The process has exited. -/
  | zombie
  /-- The scan of `kwait`; `addr` is `none` for a null address and otherwise tells whether
  `copyout` can store the status. -/
  | wait (addr : Option Bool) (rest : List P) (havekids : Bool)
  deriving DecidableEq

/-- A child reaped by `kwait`: who reaped it, its parent at that moment, its slot, the pid
returned, its exit status, and what `copyout` delivered. -/
structure Reap (P : Type) where
  caller : P
  parent : Option P
  child : P
  pid : ℤ
  status : ℤ
  delivered : Option ℤ

/-- Ghost state: the pid and status of every process that has exited, and the children
reaped. -/
structure History (P : Type) where
  exits : List (ℤ × ℤ)
  reaps : List (Reap P)

/-- The process table, the locks and the sleep-lock. `plock p` says that `p` itself holds
`p->lock` across steps; `held p` that `p` is between the return of `acquiresleep` and
`releasesleep`. `nextpid` counts on without a bound: it is the C `int` as long as it is below
`2 ^ 31`, and the pids number the processes that a slot has had. `kills` has the pid and the
result of every `kkill` that has returned. -/
structure State (P : Type) where
  slot : P → Slot P
  plock : P → Bool
  spin : Lock → Option P
  pc : P → Pc P
  nextpid : ℤ
  locked : Bool
  lkpid : ℤ
  held : P → Bool
  kills : List (ℤ × ℤ)
  hist : History P

section Steps

variable {P : Type} [DecidableEq P]

namespace State

/-- Change the slot of a process. -/
@[simp] def setSlot (s : State P) (p : P) (t : Slot P) : State P :=
  { s with slot := update s.slot p t }

/-- Go on at a program point. -/
@[simp] def goto (s : State P) (p : P) (k : Pc P) : State P :=
  { s with pc := update s.pc p k }

/-- Set whether a process holds its own `p->lock`. -/
@[simp] def setPlock (s : State P) (p : P) (b : Bool) : State P :=
  { s with plock := update s.plock p b }

/-- Set the holder of a spinlock. -/
@[simp] def setSpin (s : State P) (l : Lock) (h : Option P) : State P :=
  { s with spin := update s.spin l h }

/-- A `kkill` returns. -/
@[simp] def endKill (s : State P) (pid result : ℤ) : State P :=
  { s with kills := s.kills ++ [(pid, result)] }

end State

/-- What `wakeup` does to one slot. -/
def wakeSlot (c : Option (Chan P)) (t : Slot P) : Slot P :=
  if t.state = .sleeping ∧ t.chan = c then { t with state := .runnable } else t

/-- What `kkill` does to the slot it finds. -/
def killSlot (t : Slot P) : Slot P :=
  { t with killed := true, state := if t.state = .sleeping then .runnable else t.state }

/-- `allocproc` and `kfork` on an unused slot, while its lock is held: the child is complete
but for its parent. Of the open files `kfork` copies those that the parent has. A failure at
any allocation frees the slot again. -/
def forkSlot (fail : Option ForkFail) (pid : ℤ) (parent child : Slot P) : Slot P :=
  let np := { child with pid := pid, state := .used }
  match fail with
  | some .trapframe => np.freeproc
  | some .pagetable => { np with trapframe := true }.freeproc
  | some .uvmcopy => { np with trapframe := true, pagetable := true }.freeproc
  | none => { np with
      trapframe := true, pagetable := true, sz := parent.sz, cwd := parent.cwd
      ofile := fun fd => parent.ofile fd || child.ofile fd }

/-- The record of a child that `kwait` reaps. -/
def reapOf (p q : P) (addr : Option Bool) (t : Slot P) : Reap P where
  caller := p
  parent := t.parent
  child := q
  pid := t.pid
  status := t.xstate
  delivered := addr.map fun _ => t.xstate

/-- The section of `p` at its program counter; `none` if it has to wait for a lock. The
table is scanned in the order of `table`. -/
def micro (table : List P) (initproc p : P) (s : State P) : Option (State P) :=
  match s.pc p with
  | .unused | .run | .zombie => none
  | .acquire l k => if s.spin l = none then some ((s.setSpin l (some p)).goto p k) else none
  | .release l k => some ((s.setSpin l none).goto p k)
  | .sleepLock c l k =>
    if s.plock p then none else some ((s.setPlock p true).goto p (.sleepRelease c l k))
  | .sleepRelease c l k => some ((s.setSpin l none).goto p (.sleepPark c l k))
  | .sleepPark c l k =>
    -- The scheduler releases p->lock after the switch.
    some (((s.setSlot p { s.slot p with chan := some c, state := .sleeping }).setPlock p
      false).goto p (.sleepTidy l k))
  | .sleepTidy l k =>
    some (((s.setSlot p { s.slot p with chan := none }).setPlock p false).goto p
      (.acquire l k))
  | .wakeup _ [] k => some (s.goto p k)
  | .wakeup c (q :: rest) k =>
    if q = p then some (s.goto p (.wakeup c rest k))
    else if s.plock q then none
    else some ((s.setSlot q (wakeSlot c (s.slot q))).goto p (.wakeup c rest k))
  | .yielded k => some ((s.setPlock p false).goto p k)
  | .kill pid [] => some ((s.endKill pid (-1)).goto p .run)
  | .kill pid (q :: rest) =>
    if s.plock q then none
    else if (s.slot q).pid = pid then
      some (((s.setSlot q (killSlot (s.slot q))).endKill pid 0).goto p .run)
    else some (s.goto p (.kill pid rest))
  | .acquiresleep =>
    if s.locked then some (s.goto p (.sleepLock .sleeplk .sleeplk .acquiresleep))
    else some ({ s with
      locked := true
      lkpid := (s.slot p).pid
      held := update s.held p true }.goto p (.release .sleeplk .run))
  | .releasesleep =>
    some ({ s with
      locked := false
      lkpid := 0
      held := update s.held p false }.goto p
        (.wakeup (some .sleeplk) table (.release .sleeplk .run)))
  | .holdingsleep => some (s.goto p (.release .sleeplk .run))
  | .fork _ [] => some (s.goto p .run)
  | .fork fail (q :: rest) =>
    if s.plock q then none
    else if (s.slot q).state = .unused then
      let s' := { s.setSlot q (forkSlot fail s.nextpid (s.slot p) (s.slot q)) with
        nextpid := s.nextpid + 1 }
      some (if fail = none then (s'.goto q .forkret).goto p (.acquire .wait (.forkParent q))
        else s'.goto p .run)
    else some (s.goto p (.fork fail rest))
  | .forkParent np =>
    some ((s.setSlot np { s.slot np with parent := some p }).goto p
      (.release .wait (.forkRun np)))
  | .forkRun np =>
    if s.plock np then none
    else some ((s.setSlot np { s.slot np with state := .runnable }).goto p .run)
  | .forkret => some ((s.setPlock p false).goto p .run)
  | .exitFiles status =>
    some ((s.setSlot p { s.slot p with ofile := fun _ => false, cwd := false }).goto p
      (.acquire .wait (.exitReparent status table)))
  | .exitReparent status [] =>
    some (s.goto p (.wakeup ((s.slot p).parent.map .proc) table (.exitZombie status)))
  | .exitReparent status (q :: rest) =>
    if (s.slot q).parent = some p then
      some ((s.setSlot q { s.slot q with parent := some initproc }).goto p
        (.wakeup (some (.proc initproc)) table (.exitReparent status rest)))
    else some (s.goto p (.exitReparent status rest))
  | .exitZombie status =>
    if s.plock p then none
    else some ({ (s.setSlot p { s.slot p with
        xstate := status, state := .zombie }).setPlock p true with
      hist := { s.hist with exits := s.hist.exits ++ [((s.slot p).pid, status)] } }.goto p
        .exitRelease)
  | .exitRelease => some ((s.setSpin .wait none).goto p .exitSched)
  | .exitSched => some ((s.setPlock p false).goto p .zombie)
  | .wait addr [] havekids =>
    if s.plock p then none
    else if !havekids || (s.slot p).killed then some (s.goto p (.release .wait .run))
    else some (s.goto p (.sleepLock (.proc p) .wait (.wait addr table false)))
  | .wait addr (q :: rest) havekids =>
    if (s.slot q).parent = some p then
      if s.plock q then none
      else if (s.slot q).state = .zombie then
        if addr = some false then some (s.goto p (.release .wait .run))
        else some ({ (s.setSlot q (s.slot q).freeproc).goto q .unused with
          hist := { s.hist with reaps := s.hist.reaps ++ [reapOf p q addr (s.slot q)] } }.goto p
            (.release .wait .run))
      else some (s.goto p (.wait addr rest true))
    else some (s.goto p (.wait addr rest havekids))

/-- The calls that a process can make. -/
inductive Call : Type
  | acquiresleep
  | releasesleep
  | holdingsleep
  | kkill (pid : ℤ)
  | kfork (fail : Option ForkFail)
  | kexit (status : ℤ)
  | kwait (addr : Option Bool)
  | sleep (n : ℕ)
  | wakeup (n : ℕ)

/-- Where a call starts. -/
def Call.start (table : List P) : Call → Pc P
  | .acquiresleep => .acquire .sleeplk .acquiresleep
  | .releasesleep => .acquire .sleeplk .releasesleep
  | .holdingsleep => .acquire .sleeplk .holdingsleep
  | .kkill pid => .kill pid table
  | .kfork fail => .fork fail table
  | .kexit status => .exitFiles status
  | .kwait addr => .acquire .wait (.wait addr table false)
  | .sleep n => .acquire (.cond n) (.sleepLock (.cond n) (.cond n) (.release (.cond n) .run))
  | .wakeup n => .acquire (.cond n) (.wakeup (some (.cond n)) table (.release (.cond n) .run))

/-- Who may make a call: only the holder of the sleep-lock releases it, and a process does
not exit with it; `initproc` does not exit at all. -/
def Call.admitted (initproc p : P) (s : State P) : Call → Prop
  | .releasesleep => s.held p = true
  | .kexit _ => p ≠ initproc ∧ s.held p = false
  | _ => True

instance (initproc p : P) (s : State P) (c : Call) : Decidable (c.admitted initproc p s) := by
  unfold Call.admitted
  split <;> infer_instance

/-- The spinlock that a process holds at a program point. -/
def Pc.holds : Pc P → Option Lock
  | .release l _ => some l
  | .sleepLock _ l _ => some l
  | .sleepRelease _ l _ => some l
  | .wakeup _ _ k => k.holds
  | .acquiresleep | .releasesleep | .holdingsleep => some .sleeplk
  | .forkParent _ | .exitReparent _ _ | .exitZombie _ | .exitRelease | .wait _ _ _ => some .wait
  | _ => none

/-- The process is in the last steps of `kexit`, still on its CPU. -/
def Pc.exiting : Pc P → Bool
  | .exitRelease | .exitSched => true
  | _ => false

/-- The steps of the machine. `resize`, `setfd` and `setkilled` stand for the other system
calls and traps, as far as they change the slot of the running process. -/
inductive Act (P : Type) : Type
  | call (p : P) (c : Call)
  | step (p : P)
  | dispatch (p : P)
  | preempt (p : P)
  | resize (p : P) (n : ℕ)
  | setfd (p : P) (fd : ℕ) (b : Bool)
  | setkilled (p : P)

/-- One step. -/
def exec (table : List P) (initproc : P) (a : Act P) (s : State P) : Option (State P) :=
  match a with
  | .call p c =>
    if (s.slot p).state = .running ∧ s.pc p = .run ∧ c.admitted initproc p s then
      some (s.goto p (c.start table))
    else none
  | .step p =>
    if (s.slot p).state = .running ∨ (s.pc p).exiting then micro table initproc p s else none
  | .dispatch p =>
    -- scheduler: acquire(&p->lock), and p goes on with the lock held
    if (s.slot p).state = .runnable ∧ s.plock p = false then
      some ((s.setSlot p { s.slot p with state := .running }).setPlock p true)
    else none
  | .preempt p =>
    if (s.slot p).state = .running ∧ (s.pc p).holds = none ∧ s.plock p = false then
      some ((s.setSlot p { s.slot p with state := .runnable }).goto p (.yielded (s.pc p)))
    else none
  | .resize p n =>
    if (s.slot p).state = .running ∧ s.pc p = .run then
      some (s.setSlot p { s.slot p with sz := n })
    else none
  | .setfd p fd b =>
    if (s.slot p).state = .running ∧ s.pc p = .run then
      some (s.setSlot p { s.slot p with ofile := update (s.slot p).ofile fd b })
    else none
  | .setkilled p =>
    if (s.slot p).state = .running ∧ s.pc p = .run ∧ s.plock p = false then
      some (s.setSlot p { s.slot p with killed := true })
    else none

/-- The state after `userinit`. -/
def State.boot (initproc : P) : State P where
  slot := update (fun _ => Slot.zero) initproc
    { Slot.zero with
      pid := 1, state := .runnable, trapframe := true, pagetable := true, cwd := true }
  plock := fun _ => false
  spin := fun _ => none
  pc := update (fun _ => .unused) initproc .forkret
  nextpid := 2
  locked := false
  lkpid := 0
  held := fun _ => false
  kills := []
  hist := ⟨[], []⟩

/-- The states of the runs in which only some calls are made. -/
inductive ReachableBy (calls : Call → Prop) (table : List P) (initproc : P) : State P → Prop
  | boot : ReachableBy calls table initproc (.boot initproc)
  | step {s s' : State P} (a : Act P) (hs : ReachableBy calls table initproc s)
      (ha : ∀ p c, a = .call p c → calls c) (h : exec table initproc a s = some s') :
      ReachableBy calls table initproc s'

/-- The states of all runs. -/
abbrev Reachable (table : List P) (initproc : P) : State P → Prop :=
  ReachableBy (fun _ => True) table initproc

/-- The state after a list of steps. -/
def runs (table : List P) (initproc : P) (l : List (Act P)) (s : State P) : Option (State P) :=
  l.foldlM (fun s a => exec table initproc a s) s

/-- A run of listed steps. -/
theorem ReachableBy.runs {calls : Call → Prop} {table : List P} {initproc : P}
    {l : List (Act P)} {s s' : State P} (hs : ReachableBy calls table initproc s)
    (hl : ∀ p c, .call p c ∈ l → calls c) (h : runs table initproc l s = some s') :
    ReachableBy calls table initproc s' := by
  induction l generalizing s with
  | nil =>
    cases h
    exact hs
  | cons a l ih =>
    rw [Sched.runs, List.foldlM_cons, Option.bind_eq_bind, Option.bind_eq_some_iff] at h
    obtain ⟨t, ht, hrest⟩ := h
    refine ih (hs.step a (fun p c ha => hl p c ?_) ht) (fun p c hc => hl p c ?_) hrest
    · rw [ha]
      exact List.mem_cons_self
    · exact List.mem_cons_of_mem _ hc

/-- What `holdingsleep` returns to a process. -/
def holdingsleep (p : P) (s : State P) : Bool := s.locked && s.lkpid == (s.slot p).pid

end Steps

end RiscvKernel.Sched
