import RiscvKernel.Lib.Threads

/-!
# Sequential programs

A sequential program maps a state to an outcome. `Runs` is its weakest precondition:
the program is not stuck, panics only as allowed, and ends in the postcondition.
-/

namespace Threads

/-- A sequential program over states `σ`. -/
def Seq (σ α : Type) : Type := σ → Outcome σ α

variable {σ α β : Type}

namespace Seq

instance : Monad (Seq σ) where
  pure a := fun s => .ok a s
  bind m g := fun s => (m s).bind g

/-- Read the state. -/
def gets (f : σ → α) : Seq σ α := fun s => .ok (f s) s

/-- Change the state. -/
def modify (f : σ → σ) : Seq σ Unit := fun s => .ok () (f s)

/-- Stop with a message. -/
def panic (msg : String) : Seq σ α := fun s => .panic msg s

/-- Wait for something that never happens. -/
def stuck : Seq σ α := fun s => .stuck s

@[simp] theorem pure_apply (a : α) (s : σ) : (pure a : Seq σ α) s = .ok a s := rfl

@[simp] theorem bind_apply (m : Seq σ α) (g : α → Seq σ β) (s : σ) :
    (m >>= g) s = (m s).bind g := rfl

@[simp] theorem ok_bind (a : α) (s : σ) (g : α → Seq σ β) :
    Outcome.bind (.ok a s) g = g a s := rfl

@[simp] theorem panic_bind (msg : String) (s : σ) (g : α → Seq σ β) :
    Outcome.bind (.panic msg s) g = .panic msg s := rfl

@[simp] theorem stuck_bind (s : σ) (g : α → Seq σ β) :
    Outcome.bind (.stuck s) g = .stuck s := rfl

@[simp] theorem gets_apply (f : σ → α) (s : σ) : gets f s = .ok (f s) s := rfl

@[simp] theorem modify_apply (f : σ → σ) (s : σ) : modify f s = .ok () (f s) := rfl

@[simp] theorem panic_apply (msg : String) (s : σ) : (panic msg : Seq σ α) s = .panic msg s := rfl

@[simp] theorem stuck_apply (s : σ) : (stuck : Seq σ α) s = .stuck s := rfl

/-- Sequencing is associative. -/
theorem bind_assoc {γ : Type} (m : Seq σ α) (g : α → Seq σ β) (k : β → Seq σ γ) :
    (m >>= g) >>= k = m >>= fun a => g a >>= k := by
  funext s
  rw [bind_apply, bind_apply, bind_apply]
  cases m s with
  | ok a s1 => rfl
  | panic msg s1 => rfl
  | stuck s1 => rfl

/-- The two parts of a run that returns. -/
theorem bind_eq_ok {m : Seq σ α} {g : α → Seq σ β} {s s' : σ} {b : β}
    (h : (m >>= g) s = .ok b s') : ∃ a s1, m s = .ok a s1 ∧ g a s1 = .ok b s' := by
  rw [bind_apply] at h
  cases hm : m s with
  | ok a s1 =>
    rw [hm] at h
    exact ⟨a, s1, rfl, h⟩
  | panic msg s1 => rw [hm] at h; cases h
  | stuck s1 => rw [hm] at h; cases h

/-- From `s`, the program ends in `Q` or panics with a message allowed by `E`. -/
@[irreducible]
def Runs (E : String → Prop) (m : Seq σ α) (s : σ) (Q : α → σ → Prop) : Prop :=
  match m s with
  | .ok a s' => Q a s'
  | .panic msg _ => E msg
  | .stuck _ => False

variable {E E' : String → Prop} {m : Seq σ α} {g : α → Seq σ β} {s t : σ} {a : α} {msg : String}
  {Q Q' : α → σ → Prop} {R : β → σ → Prop}

/-- A program that returns. -/
theorem Runs.of_eq (h : m s = .ok a t) (hQ : Q a t) : Runs E m s Q := by
  unfold Runs
  rw [h]
  exact hQ

/-- A program that panics. -/
theorem Runs.of_eq_panic (h : m s = .panic msg t) (hE : E msg) : Runs E m s Q := by
  unfold Runs
  rw [h]
  exact hE

theorem Runs.pure (hQ : Q a s) : Runs E (pure a) s Q := Runs.of_eq rfl hQ

theorem Runs.modify {f : σ → σ} {Q : Unit → σ → Prop} (hQ : Q () (f s)) :
    Runs E (Seq.modify f) s Q := .of_eq rfl hQ

theorem Runs.panic (hE : E msg) : Runs E (Seq.panic msg) s Q := Runs.of_eq_panic rfl hE

/-- A program returns, or panics in an expected way. -/
theorem Runs.cases (hm : Runs E m s Q) :
    (∃ a s', m s = .ok a s' ∧ Q a s') ∨ ∃ msg s', m s = .panic msg s' ∧ E msg := by
  unfold Runs at hm
  cases h : m s with
  | ok a s' =>
    rw [h] at hm
    exact .inl ⟨a, s', rfl, hm⟩
  | panic msg s' =>
    rw [h] at hm
    exact .inr ⟨msg, s', rfl, hm⟩
  | stuck s' =>
    rw [h] at hm
    exact hm.elim

/-- The rule for sequential composition. -/
theorem Runs.bind (hm : Runs E m s Q) (hg : ∀ a s', Q a s' → Runs E (g a) s' R) :
    Runs E (m >>= g) s R := by
  rcases hm.cases with ⟨a, s', h, hQ⟩ | ⟨msg, s', h, hE⟩
  · have hrest := hg a s' hQ
    unfold Runs at hrest ⊢
    rw [bind_apply, h]
    exact hrest
  · have heq : (m >>= g) s = .panic msg s' := by rw [bind_apply, h, panic_bind]
    exact .of_eq_panic heq hE

/-- Composition after a program whose outcome is known. -/
theorem Runs.of_eq_bind (h : m s = .ok a t) (hg : Runs E (g a) t R) : Runs E (m >>= g) s R :=
  .bind (.of_eq h (Q := fun b t => Runs E (g b) t R) hg) fun _ _ h => h

/-- Composition after reading the state. -/
theorem Runs.gets_bind {f : σ → α} (hg : Runs E (g (f s)) s R) :
    Runs E (Seq.gets f >>= g) s R := .of_eq_bind rfl hg

/-- Composition after changing the state. -/
theorem Runs.modify_bind {f : σ → σ} {g : Unit → Seq σ β} (hg : Runs E (g ()) (f s) R) :
    Runs E (Seq.modify f >>= g) s R := .of_eq_bind rfl hg

/-- Weakening. -/
theorem Runs.imp (hm : Runs E m s Q) (hE : ∀ msg, E msg → E' msg)
    (hQ : ∀ a s', Q a s' → Q' a s') : Runs E' m s Q' := by
  rcases hm.cases with ⟨a, s', h, hQ'⟩ | ⟨msg, s', h, hE'⟩
  · exact .of_eq h (hQ a s' hQ')
  · exact .of_eq_panic h (hE msg hE')

/-- Weakening of the postcondition. -/
theorem Runs.mono (hm : Runs E m s Q) (hQ : ∀ a s', Q a s' → Q' a s') : Runs E m s Q' :=
  hm.imp (fun _ h => h) hQ

/-- A program that cannot panic returns. -/
theorem Runs.returns (hm : Runs (fun _ => False) m s Q) : ∃ a s', m s = .ok a s' ∧ Q a s' :=
  hm.cases.resolve_right fun ⟨_, _, _, hE⟩ => hE

/-- A program that has returned. -/
theorem Runs.of_ok (hm : Runs E m s Q) (h : m s = .ok a t) : Q a t := by
  unfold Runs at hm
  rwa [h] at hm

/-- A run that returns is the run. -/
theorem Runs.eq_ok (hm : Runs E m s Q) : Runs E m s fun a s' => Q a s' ∧ m s = .ok a s' := by
  rcases hm.cases with ⟨a, s', h, hQ⟩ | ⟨msg, s', h, hE⟩
  · exact .of_eq h ⟨hQ, h⟩
  · exact .of_eq_panic h hE

/-- If the program returns, it ends in `Q`; it may as well panic or wait. -/
def After (m : Seq σ α) (s : σ) (Q : α → σ → Prop) : Prop := ∀ a s', m s = .ok a s' → Q a s'

/-- What holds after a run that returns. -/
theorem Runs.after (hm : Runs E m s Q) : After m s Q := fun _ _ h => hm.of_ok h

theorem After.of_eq (h : m s = .ok a t) (hQ : Q a t) : After m s Q := by
  intro b t' h'
  rw [h] at h'
  cases h'
  exact hQ

theorem After.pure (hQ : Q a s) : After (pure a) s Q := After.of_eq rfl hQ

theorem After.panic : After (Seq.panic msg) s Q := fun _ _ h => nomatch h

/-- The rule for sequential composition. -/
theorem After.bind (hm : After m s Q) (hg : ∀ a s', Q a s' → After (g a) s' R) :
    After (m >>= g) s R := by
  intro b s' h
  obtain ⟨a, s1, hms, hgs⟩ := bind_eq_ok h
  exact hg a s1 (hm a s1 hms) b s' hgs

/-- Composition after reading the state. -/
theorem After.gets_bind {f : σ → α} (hg : After (g (f s)) s R) : After (Seq.gets f >>= g) s R :=
  hg

/-- Composition after changing the state. -/
theorem After.modify_bind {f : σ → σ} {g : Unit → Seq σ β} (hg : After (g ()) (f s) R) :
    After (Seq.modify f >>= g) s R := hg

/-- Weakening. -/
theorem After.mono (hm : After m s Q) (hQ : ∀ a s', Q a s' → Q' a s') : After m s Q' :=
  fun a s' h => hQ a s' (hm a s' h)

/-- Two things that hold at the end. -/
theorem After.and (hm : After m s Q) (hm' : After m s Q') :
    After m s fun a s' => Q a s' ∧ Q' a s' :=
  fun a s' h => ⟨hm a s' h, hm' a s' h⟩

/-- The states between calls that are made one after the other, each when it is allowed. -/
inductive Calls {ι : Type} (call : ι → Seq σ α) (allowed : σ → ι → Prop) (start : σ) : σ → Prop
  | start : Calls call allowed start start
  | step {s s' : σ} {i : ι} {a : α} : Calls call allowed start s → allowed s i →
      call i s = .ok a s' → Calls call allowed start s'

/-- What every allowed call keeps holds in every state between calls. -/
theorem Calls.invariant {ι : Type} {call : ι → Seq σ α} {allowed : σ → ι → Prop} {start : σ}
    {I : σ → Prop} (h : Calls call allowed start s) (hstart : I start)
    (hstep : ∀ s i, I s → allowed s i → Runs E (call i) s fun _ s' => I s') : I s := by
  induction h with
  | start => exact hstart
  | step _ hallowed heq ih => exact (hstep _ _ ih hallowed).of_ok heq

end Seq

/-! ## Programs of sections, run alone -/

section Ends

variable {P χ : Type} {p : P} {m : Prog P σ χ α} {g : α → Prog P σ χ β} {s s' : σ} {a : α}
  {E : String → Prop} {Q Q' : α → σ → Prop} {R : β → σ → Prop} {f : P → σ → Result σ χ Unit α}

/-- If the program returns when it is run alone, it ends in `Q`. -/
def Ends (p : P) (m : Prog P σ χ α) (s : σ) (Q : α → σ → Prop) : Prop := Seq.After (m.exec p) s Q

theorem Ends.ret (hQ : Q a s) : Ends p (Prog.ret a : Prog P σ χ α) s Q :=
  Seq.After.of_eq rfl hQ

/-- The rule for sequential composition. -/
theorem Ends.bind (hm : Ends p m s Q) (hg : ∀ a s', Q a s' → Ends p (g a) s' R) :
    Ends p (m >>= g) s R := by
  intro b s' h
  rw [exec_bind] at h
  obtain ⟨a, s1, hms, hgs⟩ := Seq.bind_eq_ok (m := m.exec p) (g := fun a => (g a).exec p) h
  exact hg a s1 (hm a s1 hms) b s' hgs

/-- The rule for a section. -/
theorem Ends.step (hf : ∀ a s' w, f p s = .done a s' w → Q a s') : Ends p (Prog.step f) s Q := by
  intro a s' h
  rw [exec_step] at h
  cases hfs : f p s with
  | done b t w =>
    rw [hfs] at h
    cases h
    exact hf a s' w hfs
  | sleep c i t w => rw [hfs] at h; cases h
  | block => rw [hfs] at h; cases h
  | panic msg => rw [hfs] at h; cases h

/-- The rule for a section that always completes. -/
theorem Ends.update {f : P → σ → α × σ} (hQ : Q (f p s).1 (f p s).2) :
    Ends p (Prog.update f : Prog P σ χ α) s Q := Seq.After.of_eq rfl hQ

/-- The rule for reading the state. -/
theorem Ends.read {f : σ → α} (hQ : Q (f s) s) : Ends p (Prog.read f : Prog P σ χ α) s Q :=
  Seq.After.of_eq rfl hQ

/-- Weakening. -/
theorem Ends.mono (hm : Ends p m s Q) (hQ : ∀ a s', Q a s' → Q' a s') : Ends p m s Q' :=
  Seq.After.mono hm hQ

/-- Run alone, the program ends in `Q` or panics with a message of `E`; it does not wait. -/
def Returns (p : P) (E : String → Prop) (m : Prog P σ χ α) (s : σ) (Q : α → σ → Prop) : Prop :=
  Seq.Runs E (m.exec p) s Q

theorem Returns.ret (hQ : Q a s) : Returns p E (Prog.ret a : Prog P σ χ α) s Q :=
  .of_eq rfl hQ

/-- The rule for sequential composition. -/
theorem Returns.bind (hm : Returns p E m s Q) (hg : ∀ a s', Q a s' → Returns p E (g a) s' R) :
    Returns p E (m >>= g) s R := by
  have hrun := Seq.Runs.bind hm hg
  unfold Returns Seq.Runs at *
  rwa [exec_bind]

/-- The rule for a section that completes. -/
theorem Returns.of_done {w : List χ} (hf : f p s = .done a s' w) (hQ : Q a s') :
    Returns p E (Prog.step f) s Q := by
  refine .of_eq ?_ hQ
  rw [exec_step, hf]

/-- The rule for a section that panics. -/
theorem Returns.of_panic {msg : String} (hf : f p s = .panic msg) (hE : E msg) :
    Returns p E (Prog.step f) s Q := by
  have heq : (Prog.step f).exec p s = .panic msg s := by rw [exec_step, hf]
  exact .of_eq_panic heq hE

/-- Weakening. -/
theorem Returns.mono (hm : Returns p E m s Q)
    (hQ : ∀ a s', Q a s' → Q' a s') : Returns p E m s Q' := Seq.Runs.mono hm hQ

/-- What is known of the end of a program that returns. -/
theorem Returns.and_ends (hm : Returns p E m s Q) (hm' : Ends p m s Q') :
    Returns p E m s fun a s' => Q a s' ∧ Q' a s' := by
  refine (Seq.Runs.eq_ok hm).mono ?_
  rintro a s' ⟨hQ, heq⟩
  exact ⟨hQ, hm' a s' heq⟩

end Ends

end Threads
