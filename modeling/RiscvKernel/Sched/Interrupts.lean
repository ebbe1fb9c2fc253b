import Mathlib.Data.Int.Notation
import Mathlib.Data.List.Nodup
import Mathlib.Logic.Relation

/-!
# Interrupts across context switches

`push_off` and `pop_off`, the spinlocks over them and the switch between kernel threads and the
scheduler, on one CPU. The counter `noff` and the flag `intena` belong to the CPU; that they
nevertheless describe the running thread is an invariant over all interleavings.

A context is the scheduler or a thread. While it runs, a context takes and releases locks in any
nested way, and outside of all locks interrupts go on and off (by traps, by `usertrap` and by the
scheduler). A thread calls `sched` with only its own `p->lock`; the scheduler switches to a thread
with only the lock of this thread. One lock is then taken on one side and released on the other.
-/

namespace RiscvKernel.Intr

open Function

/-! ## The functions -/

/-- The interrupt enable bit and `struct cpu`. -/
structure Cpu where
  /-- `intr_get()`. -/
  intr : Bool
  /-- Depth of `push_off` nesting. -/
  noff : ℤ
  /-- Were interrupts enabled before `push_off`? -/
  intena : Bool

/-- `push_off`. -/
def pushOff (c : Cpu) : Cpu :=
  let old := c.intr
  let c := { c with intr := false }
  let c := if c.noff = 0 then { c with intena := old } else c
  { c with noff := c.noff + 1 }

/-- `pop_off`. -/
def popOff (c : Cpu) : Except String Cpu :=
  if c.intr then .error "pop_off - interruptible"
  else if c.noff < 1 then .error "pop_off"
  else
    let c := { c with noff := c.noff - 1 }
    if c.noff = 0 ∧ c.intena = true then .ok { c with intr := true } else .ok c

variable {T L : Type}

/-- A spinlock: `p->lock` of a thread or another one. -/
inductive Lock (T L : Type) where
  | proc (t : T)
  | other (l : L)
  deriving DecidableEq

/-- The CPU and the locks. A lock that is locked is locked by this CPU. -/
structure Machine (T L : Type) where
  cpu : Cpu
  locked : Lock T L → Bool

variable [DecidableEq T] [DecidableEq L]

/-- `acquire`. -/
def acquire (lk : Lock T L) (m : Machine T L) : Except String (Machine T L) :=
  let m := { m with cpu := pushOff m.cpu }
  if m.locked lk then .error "acquire"
  else .ok { m with locked := update m.locked lk true }

/-- `release`. -/
def release (lk : Lock T L) (m : Machine T L) : Except String (Machine T L) :=
  if m.locked lk = false then .error "release"
  else do
    let m := { m with locked := update m.locked lk false }
    let cpu ← popOff m.cpu
    return { m with cpu := cpu }

/-- `sched` up to `swtch`: the value of `intena` that it keeps. Its callers have set `p->state`. -/
def schedOut (t : T) (m : Machine T L) : Except String Bool :=
  if m.locked (.proc t) = false then .error "sched p->lock"
  else if m.cpu.noff ≠ 1 then .error "sched locks"
  else if m.cpu.intr then .error "sched interruptible"
  else .ok m.cpu.intena

/-- `sched` after `swtch`. -/
def schedIn (intena : Bool) (m : Machine T L) : Machine T L :=
  { m with cpu := { m.cpu with intena := intena } }

/-- What a thread does first when the scheduler switches to it: it is in `sched`, or starts. -/
def resume (saved : Option Bool) (m : Machine T L) : Machine T L :=
  match saved with
  | some b => schedIn b m
  | none => m

/-- `yield` up to `swtch`. -/
def yieldOut (t : T) (m : Machine T L) : Except String (Machine T L × Bool) := do
  let m ← acquire (.proc t) m
  return (m, ← schedOut t m)

/-- `sleep` up to `swtch`. -/
def sleepOut (t : T) (lk : Lock T L) (m : Machine T L) : Except String (Machine T L × Bool) := do
  let m ← acquire (.proc t) m
  let m ← release lk m
  return (m, ← schedOut t m)

/-! ## The system -/

/-- What a context has done since it was outside of all locks. -/
structure Frame (T L : Type) where
  /-- The locks it has taken. -/
  held : List (Lock T L)
  /-- The calls of `push_off` without a lock. -/
  bare : ℕ
  /-- It made the outermost `push_off` itself. -/
  own : Bool
  /-- Were interrupts enabled just before the outermost `push_off`? -/
  entry : Bool

/-- The depth of the nesting. -/
def Frame.depth (f : Frame T L) : ℕ := f.held.length + f.bare

/-- Note the interrupt bit at the outermost `push_off`. -/
def Frame.enter (f : Frame T L) (intr : Bool) : Frame T L :=
  if f.depth = 0 then { f with own := true, entry := intr } else f

/-- A thread that has not run: the scheduler takes its lock for it. -/
def Frame.fresh (t : T) : Frame T L := ⟨[.proc t], 0, false, false⟩

/-- One CPU with its contexts; `none` is the scheduler. -/
structure Sys (T L : Type) where
  m : Machine T L
  /-- The context that runs. -/
  current : Option T
  /-- The variable `intena` of a thread in `sched`; `none` before a thread has run. -/
  saved : T → Option Bool
  /-- The history of each context. -/
  frame : Option T → Frame T L

/-- The frame of the context that runs. -/
def Sys.top (s : Sys T L) : Frame T L := s.frame s.current

/-- Change the frame of the context that runs. -/
def Sys.setTop (s : Sys T L) (m : Machine T L) (f : Frame T L) : Sys T L :=
  { s with m := m, frame := update s.frame s.current f }

/-- The steps of the system. -/
inductive Step : Sys T L → Sys T L → Prop
  | pushOff {s : Sys T L} :
    Step s (s.setTop { s.m with cpu := pushOff s.m.cpu }
      { s.top.enter s.m.cpu.intr with bare := s.top.bare + 1 })
  | popOff {s : Sys T L} {cpu : Cpu} (hbare : 0 < s.top.bare) (hok : popOff s.m.cpu = .ok cpu) :
    Step s (s.setTop { s.m with cpu := cpu } { s.top with bare := s.top.bare - 1 })
  | acquire {s : Sys T L} {lk : Lock T L} {m : Machine T L} (hok : acquire lk s.m = .ok m) :
    Step s (s.setTop m { s.top.enter s.m.cpu.intr with held := lk :: s.top.held })
  | release {s : Sys T L} {lk : Lock T L} {m : Machine T L} (hlk : lk ∈ s.top.held)
    (hok : release lk s.m = .ok m) :
    Step s (s.setTop m { s.top with held := s.top.held.erase lk })
  /-- Interrupts are switched on or off outside of all locks. -/
  | intr {s : Sys T L} (b : Bool) (hout : s.top.depth = 0) :
    Step s { s with m := { s.m with cpu := { s.m.cpu with intr := b } } }
  /-- A thread that holds only its own lock switches to the scheduler. -/
  | sched {s : Sys T L} {t : T} {b : Bool} (hcur : s.current = some t)
    (hheld : s.top.held = [.proc t]) (hbare : s.top.bare = 0) (hok : schedOut t s.m = .ok b) :
    Step s { s with current := none, saved := update s.saved t (some b) }
  /-- The scheduler switches to a thread; one that has not run starts in `forkret`. -/
  | dispatch {s : Sys T L} {t : T} (hcur : s.current = none) (hheld : s.top.held = [.proc t])
    (hbare : s.top.bare = 0) :
    Step s { s with m := resume (s.saved t) s.m, current := some t }
  /-- The slot of a thread that does not run is given to a new process. -/
  | alloc {s : Sys T L} {t : T} (hcur : s.current ≠ some t) :
    Step s { s with
      saved := update s.saved t none
      frame := update s.frame (some t) (Frame.fresh t) }

/-- The scheduler starts, with no lock held. -/
def Sys.init (intr intena : Bool) : Sys T L where
  m := ⟨⟨intr, 0, intena⟩, fun _ => false⟩
  current := none
  saved := fun _ => none
  frame := fun c =>
    match c with
    | none => ⟨[], 0, true, false⟩
    | some t => Frame.fresh t

/-- The states of all runs. -/
def Reachable (s : Sys T L) : Prop :=
  ∃ intr intena, Relation.ReflTransGen Step (Sys.init intr intena) s

/-! ## The invariant -/

/-- What holds in every state. -/
structure Inv (s : Sys T L) : Prop where
  /-- The counter is the depth of the context that runs. -/
  noff : s.m.cpu.noff = s.top.depth
  /-- Inside, interrupts are off. -/
  off : 0 < s.top.depth → s.m.cpu.intr = false
  /-- The locks are those of the context that runs. -/
  locked : ∀ lk, s.m.locked lk = true ↔ lk ∈ s.top.held
  nodup : s.top.held.Nodup
  /-- A thread that runs finds its own flag in `intena`. -/
  intena : ∀ t, s.current = some t → s.top.own = true → 0 < s.top.depth →
    s.m.cpu.intena = s.top.entry
  /-- A thread that does not run is in `sched` with its lock, and has kept its flag. -/
  parked : ∀ t, s.current ≠ some t → (s.frame (some t)).held = [.proc t] ∧
    (s.frame (some t)).bare = 0 ∧
    ((s.frame (some t)).own = true → s.saved t = some (s.frame (some t)).entry)
  /-- The scheduler waits with the lock of the thread that runs. -/
  waiting : ∀ t, s.current = some t → (s.frame none).held = [.proc t] ∧ (s.frame none).bare = 0

section Cpu

variable {c : Cpu}

/-- What `push_off` does. -/
theorem pushOff_eq :
    pushOff c = ⟨false, c.noff + 1, if c.noff = 0 then c.intr else c.intena⟩ := by
  unfold pushOff
  by_cases h : c.noff = 0
  · simp [h]
  · simp [h]

/-- `pop_off` inside: interrupts go on at the end of the outermost section, if they were on
before it. -/
theorem popOff_eq (hoff : c.intr = false) (hnoff : 1 ≤ c.noff) :
    popOff c = .ok ⟨decide (c.noff = 1) && c.intena, c.noff - 1, c.intena⟩ := by
  unfold popOff
  rw [if_neg (by rw [hoff]; decide), if_neg (by omega)]
  by_cases hone : c.noff = 1
  · cases hen : c.intena with
    | true => simp [hone]
    | false => simp [hone, hoff]
  · have hne : c.noff - 1 ≠ 0 := by omega
    simp [hone, hne, hoff]

end Cpu

section Steps

variable {s s' : Sys T L} {m : Machine T L} {f : Frame T L} {lk : Lock T L} {t : T}

section Frames

omit [DecidableEq T] [DecidableEq L]

/-- Noting the interrupt bit keeps the locks. -/
theorem enter_held (b : Bool) : (f.enter b).held = f.held := by
  unfold Frame.enter
  split <;> rfl

/-- It keeps the calls of `push_off` outside of locks. -/
theorem enter_bare (b : Bool) : (f.enter b).bare = f.bare := by
  unfold Frame.enter
  split <;> rfl

/-- The code after `swtch` in `sched` keeps the depth. -/
theorem resume_noff (o : Option Bool) : (resume o m).cpu.noff = m.cpu.noff := by
  cases o <;> rfl

/-- It keeps the interrupt enable bit. -/
theorem resume_intr (o : Option Bool) : (resume o m).cpu.intr = m.cpu.intr := by
  cases o <;> rfl

/-- It keeps the locks. -/
theorem resume_locked (o : Option Bool) : (resume o m).locked = m.locked := by
  cases o <;> rfl

/-- After `push_off`, `intena` is the flag of the thread that runs. -/
theorem Inv.push_intena (h : Inv s) (ht : s.current = some t)
    (hown : (s.top.enter s.m.cpu.intr).own = true) :
    (pushOff s.m.cpu).intena = (s.top.enter s.m.cpu.intr).entry := by
  rw [pushOff_eq, h.noff]
  unfold Frame.enter at hown ⊢
  by_cases hd : s.top.depth = 0
  · rw [if_pos hd, if_pos (by omega)]
  · rw [if_neg hd] at hown
    rw [if_neg hd, if_neg (by omega)]
    exact h.intena t ht hown (by omega)

/-- Inside, `pop_off` succeeds. -/
theorem Inv.popOff_eq (h : Inv s) (hd : 0 < s.top.depth) :
    popOff s.m.cpu = .ok ⟨decide (s.top.depth = 1) && s.m.cpu.intena, (s.top.depth - 1 : ℕ),
      s.m.cpu.intena⟩ := by
  have hnoff := h.noff
  rw [Intr.popOff_eq (h.off hd) (by omega), hnoff]
  have hone : decide ((s.top.depth : ℤ) = 1) = decide (s.top.depth = 1) :=
    decide_eq_decide.2 (by omega)
  have hless : (s.top.depth : ℤ) - 1 = (s.top.depth - 1 : ℕ) := by omega
  rw [hone, hless]

/-- With only its own lock, a thread passes the tests of `sched`. -/
theorem Inv.schedOut_eq (h : Inv s) (hheld : s.top.held = [.proc t]) (hbare : s.top.bare = 0) :
    schedOut t s.m = .ok s.m.cpu.intena := by
  have hd : s.top.depth = 1 := by
    unfold Frame.depth
    rw [hheld, hbare]
    rfl
  have hlocked : s.m.locked (.proc t) = true := (h.locked _).2 (by rw [hheld]; simp)
  rw [schedOut, hlocked, if_neg (by decide), if_neg (by rw [h.noff, hd]; decide),
    if_neg (by rw [h.off (by omega)]; decide)]

/-- The scheduler switches to a thread, which finds its lock taken and sets its flag. -/
theorem Inv.dispatch (h : Inv s) (hcur : s.current = none) (hheld : s.top.held = [.proc t])
    (hbare : s.top.bare = 0) :
    Inv { s with m := resume (s.saved t) s.m, current := some t } := by
  have hd : s.top.depth = 1 := by
    unfold Frame.depth
    rw [hheld, hbare]
    rfl
  have htop : s.top = s.frame none := by rw [Sys.top, hcur]
  obtain ⟨hpheld, hpbare, hsaved⟩ := h.parked t (by rw [hcur]; exact nofun)
  have hsame : (s.frame (some t)).depth = 1 := by
    unfold Frame.depth
    rw [hpheld, hpbare]
    rfl
  refine ⟨?_, ?_, ?_, ?_, ?_, ?_, ?_⟩
  · change (resume (s.saved t) s.m).cpu.noff = (s.frame (some t)).depth
    rw [resume_noff, h.noff, hd, hsame]
  · intro _
    exact (resume_intr _).trans (h.off (by omega))
  · intro lk
    change (resume (s.saved t) s.m).locked lk = true ↔ lk ∈ (s.frame (some t)).held
    rw [resume_locked, hpheld, ← hheld]
    exact h.locked lk
  · change (s.frame (some t)).held.Nodup
    rw [hpheld, ← hheld]
    exact h.nodup
  · intro t' _ hown _
    change (resume (s.saved t) s.m).cpu.intena = (s.frame (some t)).entry
    rw [hsaved hown]
    rfl
  · intro t' _
    exact h.parked t' (by rw [hcur]; exact nofun)
  · rintro t' ht'
    cases ht'
    rw [← htop]
    exact ⟨hheld, hbare⟩

end Frames

omit [DecidableEq L] in
/-- The frame of the context that runs is the one set. -/
theorem setTop_top : (s.setTop m f).top = f := update_self _ _ _

omit [DecidableEq L] in
/-- The context that runs changes its own frame and the machine. -/
theorem Inv.setTop (h : Inv s) (hnoff : m.cpu.noff = f.depth)
    (hoff : 0 < f.depth → m.cpu.intr = false) (hlocked : ∀ lk, m.locked lk = true ↔ lk ∈ f.held)
    (hnodup : f.held.Nodup)
    (hintena : ∀ t, s.current = some t → f.own = true → 0 < f.depth → m.cpu.intena = f.entry) :
    Inv (s.setTop m f) := by
  have htop : (s.setTop m f).top = f := setTop_top
  refine ⟨by rw [htop]; exact hnoff, by rw [htop]; exact hoff, by rw [htop]; exact hlocked,
    by rw [htop]; exact hnodup, by rw [htop]; exact hintena, ?_, ?_⟩
  · intro t ht
    have hframe : (s.setTop m f).frame (some t) = s.frame (some t) :=
      update_of_ne (Ne.symm ht) _ _
    rw [hframe]
    exact h.parked t ht
  · intro t ht
    have hframe : (s.setTop m f).frame none = s.frame none := by
      apply update_of_ne
      rw [show s.current = some t from ht]
      exact nofun
    rw [hframe]
    exact h.waiting t ht

/-- A lock that is held can be released. -/
theorem Inv.release_eq (h : Inv s) (hlk : lk ∈ s.top.held) :
    release lk s.m = .ok ⟨⟨decide (s.top.depth = 1) && s.m.cpu.intena, (s.top.depth - 1 : ℕ),
      s.m.cpu.intena⟩, update s.m.locked lk false⟩ := by
  have hd : 0 < s.top.depth := by
    have := List.length_pos_of_mem hlk
    unfold Frame.depth
    omega
  rw [release, if_neg (by rw [(h.locked lk).2 hlk]; decide)]
  dsimp only
  rw [h.popOff_eq hd]
  rfl

omit [DecidableEq L] in
/-- `push_off` keeps the invariant. -/
theorem Inv.push (h : Inv s) : Inv (s.setTop { s.m with cpu := pushOff s.m.cpu }
    { s.top.enter s.m.cpu.intr with bare := s.top.bare + 1 }) := by
  have hnoff := h.noff
  refine h.setTop ?_ ?_ ?_ ?_ ?_
  · rw [pushOff_eq]
    unfold Frame.depth at hnoff ⊢
    dsimp only
    rw [enter_held]
    omega
  · intro _
    rw [pushOff_eq]
  · dsimp only
    rw [enter_held]
    exact h.locked
  · dsimp only
    rw [enter_held]
    exact h.nodup
  · intro t ht hown _
    exact h.push_intena ht hown

/-- `acquire` keeps the invariant. -/
theorem Inv.acquire (h : Inv s) (hok : acquire lk s.m = .ok m) :
    Inv (s.setTop m { s.top.enter s.m.cpu.intr with held := lk :: s.top.held }) := by
  have hnoff := h.noff
  unfold Intr.acquire at hok
  dsimp only at hok
  split at hok
  · cases hok
  rename_i hfree
  cases hok
  have hnew : lk ∉ s.top.held := fun hmem => hfree ((h.locked lk).2 hmem)
  refine h.setTop ?_ ?_ ?_ (List.nodup_cons.2 ⟨hnew, h.nodup⟩) ?_
  · rw [pushOff_eq]
    unfold Frame.depth at hnoff ⊢
    dsimp only
    rw [enter_bare, List.length_cons]
    omega
  · intro _
    rw [pushOff_eq]
  · intro l
    dsimp only
    by_cases hl : l = lk
    · rw [hl, update_self]
      exact ⟨fun _ => List.mem_cons_self, fun _ => rfl⟩
    · rw [update_of_ne hl, h.locked l, List.mem_cons, or_iff_right hl]
  · intro t ht hown _
    exact h.push_intena ht hown

/-- A lock that is not held can be taken. -/
theorem Inv.acquire_ok (h : Inv s) (hlk : lk ∉ s.top.held) : ∃ m, Intr.acquire lk s.m = .ok m := by
  have hfree : s.m.locked lk ≠ true := fun hl => hlk ((h.locked lk).1 hl)
  exact ⟨_, by rw [Intr.acquire]; exact if_neg hfree⟩

omit [DecidableEq L] in
/-- One level less, on a machine with the given locks. -/
theorem Inv.pop (h : Inv s) (hdepth : f.depth + 1 = s.top.depth) (hown : f.own = s.top.own)
    (hentry : f.entry = s.top.entry) {locked : Lock T L → Bool}
    (hlocked : ∀ lk, locked lk = true ↔ lk ∈ f.held) (hnodup : f.held.Nodup) :
    Inv (s.setTop ⟨⟨decide (s.top.depth = 1) && s.m.cpu.intena, (s.top.depth - 1 : ℕ),
      s.m.cpu.intena⟩, locked⟩ f) := by
  refine h.setTop ?_ ?_ hlocked hnodup ?_
  · rw [← hdepth]
    rfl
  · intro hpos
    have hne : s.top.depth ≠ 1 := by omega
    simp [hne]
  · intro t ht hown' hpos
    rw [hentry]
    exact h.intena t ht (hown ▸ hown') (by omega)

/-- `release` keeps the invariant. -/
theorem Inv.release (h : Inv s) (hlk : lk ∈ s.top.held) (hok : release lk s.m = .ok m) :
    Inv (s.setTop m { s.top with held := s.top.held.erase lk }) := by
  rw [h.release_eq hlk] at hok
  cases hok
  refine h.pop (f := { s.top with held := s.top.held.erase lk }) ?_ rfl rfl ?_ (h.nodup.erase lk)
  · have hpos := List.length_pos_of_mem hlk
    unfold Frame.depth
    dsimp only
    rw [List.length_erase_of_mem hlk]
    omega
  · intro l
    rw [h.nodup.mem_erase_iff]
    by_cases hl : l = lk
    · rw [hl, update_self]
      simp
    · rw [update_of_ne hl, h.locked l]
      simp [hl]

/-- `yield` passes the tests of `sched`. -/
theorem Inv.yieldOut_ok (h : Inv s) (hheld : s.top.held = []) (hbare : s.top.bare = 0) :
    ∃ r, yieldOut t s.m = .ok r := by
  obtain ⟨m, hm⟩ : ∃ m, Intr.acquire (.proc t) s.m = .ok m :=
    h.acquire_ok (by rw [hheld]; exact List.not_mem_nil)
  have hout : schedOut t m = .ok m.cpu.intena :=
    (h.acquire hm).schedOut_eq (by rw [setTop_top, hheld])
      (by rw [setTop_top]; exact (enter_bare _).trans hbare)
  exact ⟨(m, m.cpu.intena), by simp only [yieldOut, hm, hout, bind, Except.bind, pure, Except.pure]⟩

/-- `sleep` passes the tests of `sched`: it takes its own lock before it releases the other. -/
theorem Inv.sleepOut_ok (h : Inv s) (hne : lk ≠ .proc t) (hheld : s.top.held = [lk])
    (hbare : s.top.bare = 0) : ∃ r, sleepOut t lk s.m = .ok r := by
  obtain ⟨m, hm⟩ : ∃ m, Intr.acquire (.proc t) s.m = .ok m :=
    h.acquire_ok (by rw [hheld]; simpa using Ne.symm hne)
  have h1 := h.acquire hm
  have hmem : lk ∈ (s.setTop m { s.top.enter s.m.cpu.intr with
      held := .proc t :: s.top.held }).top.held := by
    rw [setTop_top, hheld]
    simp
  obtain ⟨m2, hm2⟩ : ∃ m2, Intr.release lk m = .ok m2 := ⟨_, h1.release_eq hmem⟩
  have hout : schedOut t m2 = .ok m2.cpu.intena := by
    apply (h1.release hmem hm2).schedOut_eq
    · rw [setTop_top, setTop_top, hheld]
      simp [hne.symm]
    · rw [setTop_top, setTop_top]
      exact (enter_bare _).trans hbare
  exact ⟨(m2, m2.cpu.intena),
    by simp only [sleepOut, hm, hm2, hout, bind, Except.bind, pure, Except.pure]⟩

omit [DecidableEq L] in
/-- A thread with only its own lock switches to the scheduler, which has the same lock. -/
theorem Inv.sched (h : Inv s) {b : Bool} (hcur : s.current = some t)
    (hheld : s.top.held = [.proc t]) (hbare : s.top.bare = 0) (hok : schedOut t s.m = .ok b) :
    Inv { s with current := none, saved := update s.saved t (some b) } := by
  have hd : s.top.depth = 1 := by
    unfold Frame.depth
    rw [hheld, hbare]
    rfl
  have hb : b = s.m.cpu.intena := by
    rw [h.schedOut_eq hheld hbare] at hok
    exact (Except.ok.inj hok).symm
  obtain ⟨hwheld, hwbare⟩ := h.waiting t hcur
  have htop : s.top = s.frame (some t) := by rw [Sys.top, hcur]
  -- The scheduler goes on with the one lock that the thread holds.
  have hsame : (s.frame none).depth = 1 := by
    unfold Frame.depth
    rw [hwheld, hwbare]
    rfl
  refine ⟨?_, ?_, ?_, ?_, nofun, ?_, nofun⟩
  · change s.m.cpu.noff = (s.frame none).depth
    rw [h.noff, hd, hsame]
  · intro _
    exact h.off (by omega)
  · change ∀ lk, s.m.locked lk = true ↔ lk ∈ (s.frame none).held
    rw [hwheld, ← hheld]
    exact h.locked
  · change (s.frame none).held.Nodup
    rw [hwheld, ← hheld]
    exact h.nodup
  · intro t' _
    by_cases htt : t' = t
    · rw [htt, ← htop]
      refine ⟨hheld, hbare, fun hown => ?_⟩
      change update s.saved t (some b) t = _
      rw [update_self, hb, h.intena t hcur hown (by omega)]
    · obtain ⟨hheld', hbare', hsaved⟩ := h.parked t' (by rw [hcur]; simpa using Ne.symm htt)
      refine ⟨hheld', hbare', fun hown => ?_⟩
      change update s.saved t (some b) t' = _
      rw [update_of_ne htt]
      exact hsaved hown

omit [DecidableEq L] in
/-- A slot is given to a new process while another context runs. -/
theorem Inv.alloc (h : Inv s) (hcur : s.current ≠ some t) :
    Inv { s with
      saved := update s.saved t none
      frame := update s.frame (some t) (Frame.fresh t) } := by
  have hne : (some t : Option T) ≠ s.current := fun heq => hcur heq.symm
  have htop : update s.frame (some t) (Frame.fresh t) s.current = s.top :=
    update_of_ne (Ne.symm hne) _ _
  refine ⟨?_, ?_, ?_, ?_, ?_, ?_, ?_⟩
  · exact h.noff.trans (by rw [← htop]; rfl)
  · intro hpos
    exact h.off (by rw [← htop]; exact hpos)
  · intro lk
    rw [h.locked lk, ← htop]
    rfl
  · have := h.nodup
    rw [← htop] at this
    exact this
  · intro t' ht' hown hpos
    have := h.intena t' ht'
    rw [← htop] at this
    exact this hown hpos
  · intro t' ht'
    change (update s.frame (some t) (Frame.fresh t) (some t')).held = _ ∧
      (update s.frame (some t) (Frame.fresh t) (some t')).bare = 0 ∧
      ((update s.frame (some t) (Frame.fresh t) (some t')).own = true →
        update s.saved t none t' =
          some (update s.frame (some t) (Frame.fresh t) (some t')).entry)
    by_cases htt : t' = t
    · rw [htt, update_self]
      exact ⟨rfl, rfl, nofun⟩
    · rw [update_of_ne (by simpa using htt), update_of_ne htt]
      exact h.parked t' ht'
  · intro t' ht'
    change (update s.frame (some t) (Frame.fresh t) none).held = _ ∧
      (update s.frame (some t) (Frame.fresh t) none).bare = 0
    rw [update_of_ne (Option.some_ne_none t).symm]
    exact h.waiting t' ht'

/-- Every step keeps the invariant. -/
theorem Step.inv (hstep : Step s s') (h : Inv s) : Inv s' := by
  cases hstep with
  | pushOff => exact h.push
  | popOff hbare hok =>
    have hd : 0 < s.top.depth := by
      unfold Frame.depth
      omega
    rw [h.popOff_eq hd] at hok
    cases hok
    refine h.pop (f := { s.top with bare := s.top.bare - 1 }) ?_ rfl rfl h.locked h.nodup
    unfold Frame.depth
    dsimp only
    omega
  | acquire hok => exact h.acquire hok
  | release hlk hok => exact h.release hlk hok
  | intr b hout =>
    refine ⟨h.noff, ?_, h.locked, h.nodup, ?_, h.parked, h.waiting⟩
    · intro hpos
      exact absurd hpos (by change ¬ 0 < s.top.depth; omega)
    · intro t ht hown hpos
      exact h.intena t ht hown hpos
  | sched hcur hheld hbare hok => exact h.sched hcur hheld hbare hok
  | dispatch hcur hheld hbare => exact h.dispatch hcur hheld hbare
  | alloc hcur => exact h.alloc hcur

end Steps

/-! ## All runs -/

omit [DecidableEq T] [DecidableEq L] in
/-- The CPU starts in the scheduler, with every lock free. -/
theorem init_inv (intr intena : Bool) : Inv (Sys.init intr intena : Sys T L) := by
  refine ⟨rfl, ?_, ?_, List.nodup_nil, nofun, ?_, nofun⟩
  · intro hpos
    exact absurd hpos (Nat.lt_irrefl 0)
  · intro lk
    exact ⟨nofun, nofun⟩
  · intro t _
    exact ⟨rfl, rfl, nofun⟩

/-- The invariant holds in every run. -/
theorem Reachable.inv {s : Sys T L} (hs : Reachable s) : Inv s := by
  obtain ⟨intr, intena, hsteps⟩ := hs
  induction hsteps with
  | refl => exact init_inv intr intena
  | tail _ hstep ih => exact hstep.inv ih

/-- Interrupts are off inside of every section. When a thread leaves the section that it entered
itself, interrupts are as they were before it, whatever ran in between. No call panics: not
`pop_off`, not `release`, and not `sched` with only the lock of the thread, as `yield` and
`sleep` call it. -/
theorem interrupts_survive (s : Sys T L) (hs : Reachable s) :
    (0 < s.m.cpu.noff → s.m.cpu.intr = false) ∧
      (∀ t, s.current = some t → s.top.own = true → s.top.depth = 1 →
        (∀ cpu, popOff s.m.cpu = .ok cpu → cpu.intr = s.top.entry) ∧
        ∀ lk m, release lk s.m = .ok m → m.cpu.intr = s.top.entry) ∧
      (0 < s.top.depth → ∃ cpu, popOff s.m.cpu = .ok cpu) ∧
      (∀ lk ∈ s.top.held, ∃ m, release lk s.m = .ok m) ∧
      ∀ t, s.current = some t → s.top.bare = 0 →
        (s.top.held = [.proc t] → ∃ b, schedOut t s.m = .ok b) ∧
        (s.top.held = [] → ∃ r, yieldOut t s.m = .ok r) ∧
        ∀ lk, lk ≠ .proc t → s.top.held = [lk] → ∃ r, sleepOut t lk s.m = .ok r := by
  have h := hs.inv
  have hnoff := h.noff
  refine ⟨fun hpos => h.off (by omega), ?_, fun hd => ⟨_, h.popOff_eq hd⟩,
    fun lk hlk => ⟨_, h.release_eq hlk⟩, ?_⟩
  · intro t ht hown hd
    have hflag := h.intena t ht hown (by omega)
    constructor
    · intro cpu hok
      rw [h.popOff_eq (by omega)] at hok
      cases hok
      simp [hd, hflag]
    · intro lk m hok
      have hlk : lk ∈ s.top.held := by
        rw [← h.locked lk]
        by_contra hfree
        rw [release, if_pos (by simpa using hfree)] at hok
        cases hok
      rw [h.release_eq hlk] at hok
      cases hok
      simp [hd, hflag]
  · intro t ht hbare
    refine ⟨fun hheld => ⟨_, h.schedOut_eq hheld hbare⟩, ?_, ?_⟩
    · exact fun hheld => h.yieldOut_ok hheld hbare
    · exact fun lk hne hheld => h.sleepOut_ok hne hheld hbare

/-- A thread enables interrupts, takes a lock, trades it for its own as `sleep` does and is switched
out and in again; when it releases its own lock, interrupts are on again. -/
theorem interrupts_survive_sleep :
    ∃ (s : Sys Unit Unit) (m : Machine Unit Unit), Reachable s ∧ s.current = some () ∧
      s.saved () = some true ∧ release (.proc ()) s.m = .ok m ∧ m.cpu.intr = true := by
  have step : ∀ {s s' : Sys Unit Unit}, Reachable s → Step s s' → Reachable s' := by
    rintro s s' ⟨a, b, h⟩ hs
    exact ⟨a, b, h.tail hs⟩
  have take : ∀ {s : Sys Unit Unit} (lk) {m}, Reachable s → acquire lk s.m = .ok m → Reachable _ :=
    fun _ _ h hok => step h (.acquire hok)
  have drop : ∀ {s : Sys Unit Unit} (lk) {m}, Reachable s → lk ∈ s.top.held →
      release lk s.m = .ok m → Reachable _ :=
    fun _ _ h hlk hok => step h (.release hlk hok)
  have h0 : Reachable (Sys.init false false : Sys Unit Unit) := ⟨_, _, .refl⟩
  -- the scheduler takes the lock of the process, which releases it in `forkret`
  have h1 := take (.proc ()) h0 rfl
  have h2 := step h1 (.dispatch (t := ()) rfl rfl rfl)
  have h3 := drop (.proc ()) h2 (by decide) rfl
  have h4 := step h3 (.intr true rfl)
  -- `sleep` with another lock held
  have h5 := take (.other ()) h4 rfl
  have h6 := take (.proc ()) h5 rfl
  have h7 := drop (.other ()) h6 (by decide) rfl
  have h8 := step h7 (.sched (t := ()) rfl rfl rfl rfl)
  have h9 := step h8 (.dispatch (t := ()) rfl rfl rfl)
  obtain ⟨-, hback, -, hrelease, -⟩ := interrupts_survive _ h9
  obtain ⟨m, hm⟩ := hrelease (.proc ()) (by decide)
  exact ⟨_, m, h9, rfl, rfl, hm, (hback () rfl rfl rfl).2 _ m hm⟩

end RiscvKernel.Intr
