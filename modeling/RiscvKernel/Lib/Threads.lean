import Mathlib.Logic.Function.Basic
import Mathlib.Data.Set.Basic

/-!
# Threads made of critical sections

A thread is a tree of critical sections over a shared state. A section runs
without interference; between two sections every other thread may run. A section
may also put its thread to sleep on a channel, and any completed section may wake
the sleepers of a list of channels. The same program has two readings: `exec` runs
it alone, `Step` interleaves any number of programs.

The second half is a rely/guarantee rule. Safety of a program is stated with
respect to assertions that the sections of other threads keep; the rule then gives
the shared invariant in every configuration of a run whose states are all admitted.
-/

namespace Threads

open Function

/-- The result of one critical section. `block` leaves the state alone and lets the
section be tried again later; `sleep` releases the section's lock and waits for a
wakeup, after which the section is entered again with the loop state `i`. -/
inductive Result (σ χ ι β : Type) : Type
  | done (b : β) (s : σ) (wake : List χ)
  | sleep (c : χ) (i : ι) (s : σ) (wake : List χ)
  | block
  | panic (msg : String)

/-- A program is a tree of critical sections. The loop state `i` of a section is
what a waiting loop carries from one wakeup to the next. -/
inductive Prog (P σ χ α : Type) : Type 1
  | ret (a : α) : Prog P σ χ α
  | act {ι β : Type} (i : ι) (f : ι → P → σ → Result σ χ ι β) (k : β → Prog P σ χ α) :
      Prog P σ χ α

variable {P σ χ α β : Type}

namespace Prog

/-- Sequential composition. -/
def bind : Prog P σ χ α → (α → Prog P σ χ β) → Prog P σ χ β
  | ret a, g => g a
  | act i f k, g => act i f (fun b => (k b).bind g)

instance : Monad (Prog P σ χ) where
  pure := ret
  bind := bind

/-- A section that neither waits nor wakes. -/
def step (f : P → σ → Result σ χ Unit α) : Prog P σ χ α :=
  act () (fun _ => f) ret

/-- A section that always completes: a state transformer returning a value. -/
def update (f : P → σ → α × σ) : Prog P σ χ α :=
  step fun p s => .done (f p s).1 (f p s).2 []

/-- Read the shared state. -/
def read (f : σ → α) : Prog P σ χ α :=
  update fun _ s => (f s, s)

@[simp] theorem pure_eq (a : α) : (pure a : Prog P σ χ α) = ret a := rfl

@[simp] theorem ret_bind (a : α) (g : α → Prog P σ χ β) : (ret a >>= g) = g a := rfl

@[simp] theorem act_bind {ι γ : Type} (i : ι) (f : ι → P → σ → Result σ χ ι γ)
    (k : γ → Prog P σ χ α) (g : α → Prog P σ χ β) :
    (act i f k >>= g) = act i f (fun b => k b >>= g) := rfl

/-- Sequential composition is associative. -/
theorem bind_assoc {γ : Type} (m : Prog P σ χ α) (g : α → Prog P σ χ β)
    (h : β → Prog P σ χ γ) : (m >>= g >>= h) = (m >>= fun a => g a >>= h) := by
  induction m with
  | ret a => rfl
  | act i f k ih =>
    simp only [act_bind]
    congr 1
    funext b
    exact ih b

end Prog

/-- The outcome of running a program alone. Every outcome carries the state reached,
so that what a failed run has already done stays visible. -/
inductive Outcome (σ α : Type) : Type
  | ok (a : α) (s : σ)
  | panic (msg : String) (s : σ)
  | stuck (s : σ)

namespace Outcome

/-- The state in which a run ended. -/
def state : Outcome σ α → σ
  | ok _ s => s
  | panic _ s => s
  | stuck s => s

/-- Continue a successful run. -/
def bind : Outcome σ α → (α → σ → Outcome σ β) → Outcome σ β
  | ok a s, g => g a s
  | panic msg s, _ => panic msg s
  | stuck s, _ => stuck s

@[simp] theorem bind_ok (a : α) (s : σ) (g : α → σ → Outcome σ β) : (ok a s).bind g = g a s := rfl

@[simp] theorem bind_panic (msg : String) (s : σ) (g : α → σ → Outcome σ β) :
    (panic msg s : Outcome σ α).bind g = panic msg s := rfl

@[simp] theorem state_ok (a : α) (s : σ) : (ok a s).state = s := rfl

@[simp] theorem state_panic (msg : String) (s : σ) : (panic msg s : Outcome σ α).state = s := rfl

/-- The result of a run that has returned. -/
def value : Outcome σ α → Option α
  | ok a _ => some a
  | _ => none

/-- The message of a run that has panicked. -/
def message : Outcome σ α → Option String
  | panic msg _ => some msg
  | _ => none

/-- An outcome with a value. -/
theorem eq_ok {o : Outcome σ α} {a : α} (h : o.value = some a) : o = ok a o.state := by
  cases o with
  | ok a' s => rw [Option.some.inj h, state_ok]
  | panic msg s => cases h
  | stuck s => cases h

/-- An outcome with a message. -/
theorem eq_panic {o : Outcome σ α} {msg : String} (h : o.message = some msg) :
    o = panic msg o.state := by
  cases o with
  | ok a s => cases h
  | panic msg' s => rw [Option.some.inj h, state_panic]
  | stuck s => cases h

end Outcome

/-- Run a program alone. A thread that would wait has nobody to wake it: it is stuck. -/
def Prog.exec (p : P) : Prog P σ χ α → σ → Outcome σ α
  | .ret a, s => .ok a s
  | .act i f k, s =>
    match f i p s with
    | .done b s' _ => (k b).exec p s'
    | .sleep _ _ s' _ => .stuck s'
    | .block => .stuck s
    | .panic msg => .panic msg s

@[simp] theorem exec_ret (p : P) (a : α) (s : σ) :
    (Prog.ret a : Prog P σ χ α).exec p s = .ok a s := rfl

/-- Running a composition runs the first part and continues from its outcome. -/
theorem exec_bind (p : P) (m : Prog P σ χ α) (g : α → Prog P σ χ β) (s : σ) :
    (m >>= g).exec p s = (m.exec p s).bind fun a s' => (g a).exec p s' := by
  induction m generalizing s with
  | ret a => rfl
  | act i f k ih =>
    simp only [Prog.act_bind, Prog.exec]
    cases f i p s with
    | done b s' w => exact ih b s'
    | sleep c j s' w => rfl
    | block => rfl
    | panic msg => rfl

@[simp] theorem exec_step (p : P) (f : P → σ → Result σ χ Unit α) (s : σ) :
    (Prog.step f).exec p s =
      match f p s with
      | .done b s' _ => .ok b s'
      | .sleep _ _ s' _ => .stuck s'
      | .block => .stuck s
      | .panic msg => .panic msg s := by
  simp only [Prog.step, Prog.exec]
  cases f p s <;> rfl

@[simp] theorem exec_update (p : P) (f : P → σ → α × σ) (s : σ) :
    (Prog.update f : Prog P σ χ α).exec p s = .ok (f p s).1 (f p s).2 := rfl

@[simp] theorem exec_read (p : P) (f : σ → α) (s : σ) :
    (Prog.read f : Prog P σ χ α).exec p s = .ok (f s) s := rfl

/-! ## Programs that leave a part of the state alone -/

/-- The effect of one section stays within the relation `R`; it may panic with `may` only. -/
def Result.Within {ι : Type} (R : σ → σ → Prop) (may : String → Prop) (s : σ) :
    Result σ χ ι α → Prop
  | .done _ s' _ => R s s'
  | .sleep _ _ s' _ => R s s'
  | .block => True
  | .panic msg => may msg

/-- Every section of the program stays within the relation `R`. -/
def Prog.Within (R : σ → σ → Prop) (may : String → Prop) : Prog P σ χ α → Prop
  | .ret _ => True
  | .act _ f k => (∀ j p s, (f j p s).Within R may s) ∧ ∀ b, (k b).Within R may

namespace Prog.Within

variable {R : σ → σ → Prop} {may : String → Prop}

theorem ret (a : α) : (Prog.ret a : Prog P σ χ α).Within R may := trivial

theorem bind {m : Prog P σ χ α} {g : α → Prog P σ χ β} (hm : m.Within R may)
    (hg : ∀ a, (g a).Within R may) : (m >>= g).Within R may := by
  induction m with
  | ret a => exact hg a
  | act i f k ih => exact ⟨hm.1, fun b => ih b (hm.2 b)⟩

theorem step {f : P → σ → Result σ χ Unit α} (hf : ∀ p s, (f p s).Within R may s) :
    (Prog.step f).Within R may :=
  ⟨fun _ => hf, fun _ => trivial⟩

theorem update {f : P → σ → α × σ} (hf : ∀ p s, R s (f p s).2) :
    (Prog.update f : Prog P σ χ α).Within R may :=
  step hf

theorem read [Std.Refl R] (f : σ → α) : (Prog.read f : Prog P σ χ α).Within R may :=
  update fun _ s => Std.Refl.refl s

end Prog.Within

/-! ## Interleaving -/

/-- A thread: the rest of its current call, and the channel it sleeps on if any. -/
structure Thread (P σ χ : Type) : Type 1 where
  /-- What the thread still has to run. -/
  prog : Prog P σ χ Unit
  /-- The channel the thread sleeps on. -/
  asleep : Option χ := none

/-- A configuration: the shared state and every thread. -/
structure Config (P σ χ : Type) : Type 1 where
  /-- The state all threads share. -/
  st : σ
  /-- The threads. -/
  thread : P → Thread P σ χ

/-- Wake a thread that sleeps on one of the channels. -/
def Thread.wakeup [DecidableEq χ] (wake : List χ) (t : Thread P σ χ) : Thread P σ χ :=
  match t.asleep with
  | some c => if c ∈ wake then { t with asleep := none } else t
  | none => t

section Interleaving

variable [DecidableEq P] [DecidableEq χ]

/-- One step of the interleaving. An idle thread starts one of the calls open to it,
an awake thread runs its next section, and a sleeping thread may be woken at any time. -/
inductive Step (calls : P → σ → Prog P σ χ Unit → Prop) : Config P σ χ → Config P σ χ → Prop
  | call {c : Config P σ χ} {p : P} {m : Prog P σ χ Unit} :
      c.thread p = ⟨.ret (), none⟩ → calls p c.st m →
      Step calls c ⟨c.st, update c.thread p ⟨m, none⟩⟩
  | run {c : Config P σ χ} {p : P} {ι β : Type} {i : ι} {f : ι → P → σ → Result σ χ ι β}
      {k : β → Prog P σ χ Unit} {b : β} {s : σ} {wake : List χ} :
      c.thread p = ⟨.act i f k, none⟩ → f i p c.st = .done b s wake →
      Step calls c ⟨s, fun q => if q = p then ⟨k b, none⟩ else (c.thread q).wakeup wake⟩
  | wait {c : Config P σ χ} {p : P} {ι β : Type} {i j : ι} {f : ι → P → σ → Result σ χ ι β}
      {k : β → Prog P σ χ Unit} {ch : χ} {s : σ} {wake : List χ} :
      c.thread p = ⟨.act i f k, none⟩ → f i p c.st = .sleep ch j s wake →
      Step calls c ⟨s, fun q => if q = p then ⟨.act j f k, some ch⟩ else (c.thread q).wakeup wake⟩
  | kill {c : Config P σ χ} {p : P} :
      Step calls c ⟨c.st, update c.thread p ⟨(c.thread p).prog, none⟩⟩

/-- Configurations reachable from an idle start by steps into states admitted by `ok`. -/
inductive ReachableWhile (ok : σ → Prop) (calls : P → σ → Prog P σ χ Unit → Prop)
    (init : σ → Prop) : Config P σ χ → Prop
  | start {s : σ} : init s → ReachableWhile ok calls init ⟨s, fun _ => ⟨.ret (), none⟩⟩
  | step {c c' : Config P σ χ} : ReachableWhile ok calls init c → Step calls c c' → ok c'.st →
      ReachableWhile ok calls init c'

/-- Configurations reachable from an idle start. -/
abbrev Reachable (calls : P → σ → Prog P σ χ Unit → Prop) (init : σ → Prop) :
    Config P σ χ → Prop := ReachableWhile (fun _ => True) calls init

variable {ok init : σ → Prop} {calls calls' : P → σ → Prog P σ χ Unit → Prop} {c : Config P σ χ}
  {m : Prog P σ χ Unit} {s s' : σ}

/-- A run with fewer calls to choose from is a run. -/
theorem ReachableWhile.mono_calls (hcalls : ∀ p s m, calls p s m → calls' p s m)
    (h : ReachableWhile ok calls init c) : ReachableWhile ok calls' init c := by
  induction h with
  | start hs => exact .start hs
  | step _ hstep hok ih =>
    refine ih.step ?_ hok
    cases hstep with
    | call hret hcall => exact .call hret (hcalls _ _ _ hcall)
    | run hact hf => exact .run hact hf
    | wait hact hf => exact .wait hact hf
    | kill => exact .kill

/-- What holds in every reachable state may be taken for admitted. -/
theorem Reachable.whileOk (hok : ∀ c, Reachable calls init c → ok c.st)
    (h : Reachable calls init c) : ReachableWhile ok calls init c := by
  induction h with
  | start hs => exact .start hs
  | step hprev hstep htrue ih => exact ih.step hstep (hok _ (hprev.step hstep htrue))

/-- A thread that runs alone to the end of its program. -/
theorem Reachable.exec {p : P}
    (h : Reachable calls init ⟨s, update (fun _ => ⟨.ret (), none⟩) p ⟨m, none⟩⟩)
    (hexec : m.exec p s = .ok () s') : Reachable calls init ⟨s', fun _ => ⟨.ret (), none⟩⟩ := by
  induction m generalizing s with
  | ret a =>
    cases hexec
    rwa [update_eq_self] at h
  | act i f k ih =>
    rw [Prog.exec] at hexec
    cases hf : f i p s with
    | done b s1 wake =>
      rw [hf] at hexec
      refine ih b ?_ hexec
      have hp : update (fun _ => ⟨.ret (), none⟩ : P → Thread P σ χ) p ⟨.act i f k, none⟩ p =
          ⟨.act i f k, none⟩ := by simp
      have hstep := h.step (Step.run hp hf) trivial
      refine cast (congrArg (fun t => Reachable calls init ⟨s1, t⟩) ?_) hstep
      funext q
      by_cases hq : q = p
      · simp [hq]
      · simp [hq, Thread.wakeup]
    | sleep c j s1 wake =>
      rw [hf] at hexec
      cases hexec
    | block =>
      rw [hf] at hexec
      cases hexec
    | panic msg =>
      rw [hf] at hexec
      cases hexec

/-- A call that runs alone from an idle configuration back to an idle one. -/
theorem Reachable.call (h : Reachable calls init ⟨s, fun _ => ⟨.ret (), none⟩⟩)
    (p : P) (hcall : calls p s m) (hexec : m.exec p s = .ok () s') :
    Reachable calls init ⟨s', fun _ => ⟨.ret (), none⟩⟩ :=
  Reachable.exec (h.step (Step.call (p := p) rfl hcall) trivial) hexec

end Interleaving

/-- The next section of thread `p` panics with `msg`. -/
def Panics (c : Config P σ χ) (p : P) (msg : String) : Prop :=
  ∃ (ι β : Type) (i : ι) (f : ι → P → σ → Result σ χ ι β) (k : β → Prog P σ χ Unit),
    c.thread p = ⟨.act i f k, none⟩ ∧ f i p c.st = .panic msg

/-- A thread that is about to run a section that panics. -/
theorem panics_step [DecidableEq P] {s : σ} {t : P → Thread P σ χ} {p : P}
    {f : P → σ → Result σ χ Unit Unit} {msg : String} (h : f p s = .panic msg) :
    Panics ⟨s, update t p ⟨Prog.step f, none⟩⟩ p msg :=
  ⟨Unit, Unit, (), fun _ => f, .ret, update_self _ _ _, h⟩

/-! ## Rely and guarantee -/

/-- What a family of threads agrees on: which states are admitted, the invariant of the
shared state, what a section of a thread may do to it, why a thread may sleep on a channel,
and which panics are possible at all. -/
structure Contract (P σ χ : Type) where
  /-- The states that a section may lead to; nothing is promised of a run that leaves them. -/
  ok : σ → Prop
  /-- The invariant between sections. -/
  inv : σ → Prop
  /-- What a section of `p` does, with the channels it wakes. -/
  guar : P → σ → List χ → σ → Prop
  /-- The condition under which sleeping on a channel is justified. -/
  wait : χ → σ → Prop
  /-- Panics that are not excluded. -/
  mayPanic : σ → String → Prop
  /-- A justified sleep stays justified until the channel is woken. -/
  wait_guar : ∀ {p s w s' c}, inv s → guar p s w s' → inv s' → wait c s → c ∉ w → wait c s'

namespace Contract

variable (C : Contract P σ χ)

/-- What the other threads may do between two sections of `p`. -/
def Rely (p : P) (s s' : σ) : Prop :=
  ∃ q w, q ≠ p ∧ C.inv s ∧ C.guar q s w s' ∧ C.inv s'

/-- An assertion of `p` that no section of another thread can break. -/
def Stable (p : P) (A : σ → Prop) : Prop :=
  ∀ ⦃s s'⦄, A s → C.Rely p s s' → A s'

/-- What a section of `p` has to establish: it keeps the contract and leaves a state
good for the rest of the program (`J` if it sleeps, `Q` if it completes). -/
def Good {ι β : Type} (p : P) (s : σ) (J : ι → σ → Prop) (Q : β → σ → Prop) :
    Result σ χ ι β → Prop
  | .done b s' w => C.ok s' → C.inv s' ∧ C.guar p s w s' ∧ Q b s'
  | .sleep c j s' w => C.ok s' → C.inv s' ∧ C.guar p s w s' ∧ C.wait c s' ∧ J j s'
  | .block => True
  | .panic msg => C.mayPanic s msg

/-- A program is safe from a state if each of its sections keeps the contract, from
any state the other threads can produce meanwhile, and it ends in `Q`. -/
def Safe (p : P) : Prog P σ χ α → (α → σ → Prop) → σ → Prop
  | .ret a, Q, s => Q a s
  | .act i f k, Q, s => ∃ J, J i s ∧ (∀ j, C.Stable p (J j)) ∧
      ∀ j s', J j s' → C.inv s' →
        C.Good p s' J (fun b s'' => Safe p (k b) Q s'') (f j p s')

variable {C} {p : P} {s s' : σ} {m : Prog P σ χ α} {A : σ → Prop} {Q Q' : α → σ → Prop}

/-- Weakening of the postcondition of a section. -/
theorem Good.imp {ι β : Type} {J : ι → σ → Prop} {Q Q' : β → σ → Prop}
    {r : Result σ χ ι β} (h : C.Good p s J Q r) (himp : ∀ b s', Q b s' → Q' b s') :
    C.Good p s J Q' r := by
  cases r with
  | done b s' w => exact fun hok => ⟨(h hok).1, (h hok).2.1, himp b s' (h hok).2.2⟩
  | sleep c j s' w => exact h
  | block => trivial
  | panic msg => exact h

/-- Weakening of the postcondition of a program. -/
theorem Safe.imp (h : C.Safe p m Q s) (himp : ∀ a s', Q a s' → Q' a s') : C.Safe p m Q' s := by
  induction m generalizing s with
  | ret a => exact himp a s h
  | act i f k ih =>
    obtain ⟨J, hJ, hstable, hsec⟩ := h
    refine ⟨J, hJ, hstable, fun j s' hj hinv => (hsec j s' hj hinv).imp ?_⟩
    intro b s'' hsafe
    exact ih b hsafe

/-- The rule for sequential composition. -/
theorem Safe.bind {g : α → Prog P σ χ β} {R : β → σ → Prop} (hm : C.Safe p m Q s)
    (hg : ∀ a s', Q a s' → C.Safe p (g a) R s') : C.Safe p (m >>= g) R s := by
  induction m generalizing s with
  | ret a => exact hg a s hm
  | act i f k ih =>
    obtain ⟨J, hJ, hstable, hsec⟩ := hm
    refine ⟨J, hJ, hstable, fun j s' hj hinv => (hsec j s' hj hinv).imp ?_⟩
    intro b s'' hsafe
    exact ih b hsafe

/-- The rule for a single section under a stable assertion. -/
theorem Safe.step {f : P → σ → Result σ χ Unit α} (hA : A s) (hstable : C.Stable p A)
    (hsec : ∀ s', A s' → C.inv s' → C.Good p s' (fun _ => A) Q (f p s')) :
    C.Safe p (Prog.step f) Q s :=
  ⟨fun _ => A, hA, fun _ => hstable, fun _ s' hA' hinv => hsec s' hA' hinv⟩

/-- The rule for a section that always completes. -/
theorem Safe.update {f : P → σ → α × σ} (hA : A s) (hstable : C.Stable p A)
    (hsec : ∀ s', A s' → C.inv s' →
      C.inv (f p s').2 ∧ C.guar p s' [] (f p s').2 ∧ Q (f p s').1 (f p s').2) :
    C.Safe p (Prog.update f) Q s :=
  Safe.step hA hstable fun s' hA' hinv _ => hsec s' hA' hinv

/-- Run alone, a safe program ends in its postcondition. -/
theorem Safe.exec_ok {a : α}
    (h : C.Safe p m Q s) (hinv : C.inv s) (hok : ∀ s, C.ok s) (hexec : m.exec p s = .ok a s') :
    Q a s' := by
  induction m generalizing s with
  | ret b =>
    cases hexec
    exact h
  | act i f k ih =>
    obtain ⟨J, hJ, -, hsec⟩ := h
    have hgood := hsec i s hJ hinv
    rw [Prog.exec] at hexec
    cases hf : f i p s with
    | done b s1 w =>
      rw [hf] at hexec hgood
      obtain ⟨hinv', -, hsafe⟩ := hgood (hok s1)
      exact ih b hsafe hinv' hexec
    | sleep c j s1 w => rw [hf] at hexec; cases hexec
    | block => rw [hf] at hexec; cases hexec
    | panic msg => rw [hf] at hexec; cases hexec

/-- A program all of whose sections stay within a relation that keeps the contract and an
assertion. The relation says what the program leaves alone. -/
theorem Safe.of_within {R : σ → σ → Prop} {may : String → Prop}
    (hstable : C.Stable p A) (hA : ∀ s s', R s s' → A s → A s')
    (hinv : ∀ s s', R s s' → C.ok s' → C.inv s → C.inv s')
      (hguar : ∀ s s' w, R s s' → C.guar p s w s')
    (hwait : ∀ c s, C.wait c s) (hmay : ∀ s msg, may msg → C.mayPanic s msg)
    (hm : m.Within R may) (hs : A s) : C.Safe p m (fun _ => A) s := by
  induction m generalizing s with
  | ret a => exact hs
  | act i f k ih =>
    refine ⟨fun _ => A, hs, fun _ => hstable, fun j s' hA' hinv' => ?_⟩
    have hsec := hm.1 j p s'
    cases hf : f j p s' with
    | done b s1 w =>
      rw [hf] at hsec
      exact fun hok => ⟨hinv _ _ hsec hok hinv', hguar _ _ _ hsec, ih b (hm.2 b) (hA _ _ hsec hA')⟩
    | sleep c j' s1 w =>
      rw [hf] at hsec
      exact fun hok => ⟨hinv _ _ hsec hok hinv', hguar _ _ _ hsec, hwait c s1, hA _ _ hsec hA'⟩
    | block => trivial
    | panic msg =>
      rw [hf] at hsec
      exact hmay s' msg hsec

/-- Safety of a program is itself kept by the other threads. -/
theorem Safe.stable (hQ : ∀ a, C.Stable p (Q a)) : C.Stable p (C.Safe p m Q) := by
  intro s s' h hrely
  cases m with
  | ret a => exact hQ a h hrely
  | act i f k =>
    obtain ⟨J, hJ, hstable, hsec⟩ := h
    exact ⟨J, hstable i hJ hrely, hstable, hsec⟩

/-- The contract seen from a whole configuration: the invariant holds, every thread
is safe, and every sleeper has a reason to sleep. -/
structure Holds (C : Contract P σ χ) (idle : P → σ → Prop) (c : Config P σ χ) : Prop where
  /-- The shared invariant. -/
  inv : C.inv c.st
  /-- Every thread runs a safe program. -/
  safe : ∀ p, C.Safe p (c.thread p).prog (fun _ => idle p) c.st
  /-- No sleeper has missed its wakeup. -/
  wait : ∀ p ch, (c.thread p).asleep = some ch → C.wait ch c.st

section Soundness

variable [DecidableEq χ]

@[simp] theorem wakeup_prog (wake : List χ) (t : Thread P σ χ) :
    (t.wakeup wake).prog = t.prog := by
  unfold Thread.wakeup
  split
  · split <;> rfl
  · rfl

/-- A thread still asleep after a wakeup was asleep before, on a channel not woken. -/
theorem wakeup_asleep {wake : List χ} {t : Thread P σ χ} {ch : χ}
    (h : (t.wakeup wake).asleep = some ch) : t.asleep = some ch ∧ ch ∉ wake := by
  unfold Thread.wakeup at h
  split at h
  · rename_i c hc
    split at h
    · cases h
    · rename_i hmem
      rw [hc] at h
      cases h
      exact ⟨hc, hmem⟩
  · rename_i hnone
    rw [hnone] at h
    cases h

omit [DecidableEq χ] in
/-- The other threads stay safe. -/
private theorem safe_other {idle : P → σ → Prop} (hidle : ∀ p, C.Stable p (idle p))
    {c : Config P σ χ} (h : Holds C idle c) {p q : P} (hq : q ≠ p) {s : σ} {w : List χ}
    (hguar : C.guar p c.st w s) (hinv : C.inv s) :
    C.Safe q (c.thread q).prog (fun _ => idle q) s :=
  Safe.stable (fun _ => hidle q) (h.safe q) ⟨p, w, hq.symm, h.inv, hguar, hinv⟩

variable [DecidableEq P]

/-- One step keeps the contract, provided that every call an idle thread may start is
safe from the invariant and the thread's idle assertion. -/
theorem Holds.step {calls : P → σ → Prog P σ χ Unit → Prop} {idle : P → σ → Prop}
    (hidle : ∀ p, C.Stable p (idle p))
    (hcalls : ∀ p s m, C.inv s → idle p s → calls p s m → C.Safe p m (fun _ => idle p) s)
    {c c' : Config P σ χ} (h : Holds C idle c) (hstep : Step calls c c') (hok : C.ok c'.st) :
    Holds C idle c' := by
  cases hstep with
  | @call p m hret hcall =>
    have hp : idle p c.st := by
      have := h.safe p
      rw [hret] at this
      exact this
    refine ⟨h.inv, fun q => ?_, fun q ch hch => ?_⟩
    · by_cases hq : q = p
      · subst hq
        simpa using hcalls q c.st m h.inv hp hcall
      · simpa [hq] using h.safe q
    · by_cases hq : q = p
      · subst hq
        simp at hch
      · exact h.wait q ch (by simpa [hq] using hch)
  | @run p ι β i f k b s wake hact hf =>
    have hsafe := h.safe p
    rw [hact] at hsafe
    obtain ⟨J, hJ, -, hsec⟩ := hsafe
    have hgood := hsec i c.st hJ h.inv
    rw [hf] at hgood
    obtain ⟨hinv, hguar, hnext⟩ := hgood hok
    refine ⟨hinv, fun q => ?_, fun q ch hch => ?_⟩
    · by_cases hq : q = p
      · subst hq
        simpa using hnext
      · simpa [hq] using safe_other hidle h hq hguar hinv
    · by_cases hq : q = p
      · subst hq
        simp at hch
      · simp only [hq, if_false] at hch
        obtain ⟨hasleep, hmem⟩ := wakeup_asleep hch
        exact C.wait_guar h.inv hguar hinv (h.wait q ch hasleep) hmem
  | @wait p ι β i j f k ch s wake hact hf =>
    have hsafe := h.safe p
    rw [hact] at hsafe
    obtain ⟨J, hJ, hstable, hsec⟩ := hsafe
    have hgood := hsec i c.st hJ h.inv
    rw [hf] at hgood
    obtain ⟨hinv, hguar, hwait, hJ'⟩ := hgood hok
    refine ⟨hinv, fun q => ?_, fun q ch' hch => ?_⟩
    · by_cases hq : q = p
      · subst hq
        simpa using ⟨J, hJ', hstable, hsec⟩
      · simpa [hq] using safe_other hidle h hq hguar hinv
    · by_cases hq : q = p
      · subst hq
        simp only [if_true, Option.some.injEq] at hch
        subst hch
        exact hwait
      · simp only [hq, if_false] at hch
        obtain ⟨hasleep, hmem⟩ := wakeup_asleep hch
        exact C.wait_guar h.inv hguar hinv (h.wait q ch' hasleep) hmem
  | @kill p =>
    refine ⟨h.inv, fun q => ?_, fun q ch hch => ?_⟩
    · by_cases hq : q = p
      · subst hq
        simpa using h.safe q
      · simpa [hq] using h.safe q
    · by_cases hq : q = p
      · subst hq
        simp at hch
      · exact h.wait q ch (by simpa [hq] using hch)

/-- **Soundness.** The contract holds in every configuration of a run in admitted states. -/
theorem holds_of_reachable {calls : P → σ → Prog P σ χ Unit → Prop} {init : σ → Prop}
    {idle : P → σ → Prop} (hidle : ∀ p, C.Stable p (idle p))
    (hcalls : ∀ p s m, C.inv s → idle p s → calls p s m → C.Safe p m (fun _ => idle p) s)
    (hinit : ∀ s, init s → C.inv s ∧ ∀ p, idle p s)
    {c : Config P σ χ} (hc : ReachableWhile C.ok calls init c) : Holds C idle c := by
  induction hc with
  | start hs =>
    obtain ⟨hinv, hp⟩ := hinit _ hs
    exact ⟨hinv, hp, fun p ch hch => by cases hch⟩
  | step _ hstep hok ih => exact ih.step hidle hcalls hstep hok

end Soundness

/-- A thread of a configuration that keeps the contract only panics where it may. -/
theorem Holds.mayPanic {idle : P → σ → Prop} {c : Config P σ χ} (h : Holds C idle c)
    {p : P} {msg : String} (hpanic : Panics c p msg) : C.mayPanic c.st msg := by
  obtain ⟨ι, β, i, f, k, hact, hf⟩ := hpanic
  have hsafe := h.safe p
  rw [hact] at hsafe
  obtain ⟨J, hJ, -, hsec⟩ := hsafe
  have hgood := hsec i c.st hJ h.inv
  rw [hf] at hgood
  exact hgood

end Contract

end Threads
