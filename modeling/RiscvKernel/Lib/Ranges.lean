import Mathlib.Data.List.Basic
import Mathlib.Algebra.BigOperators.Group.List.Basic
import Mathlib.Algebra.GroupWithZero.Nat

/-!
# Ranges

A range is a pair of its start and its length.
-/

namespace Ranges

variable {base : ℕ} {rs : List (ℕ × ℕ)}

/-- Two ranges have no element in common. -/
def Apart (r r' : ℕ × ℕ) : Prop := r.1 + r.2 ≤ r'.1 ∨ r'.1 + r'.2 ≤ r.1

/-- The length of all ranges together. -/
def total (rs : List (ℕ × ℕ)) : ℕ := (rs.map Prod.snd).sum

/-- The ranges follow one another from `base` on. -/
def Consecutive : ℕ → List (ℕ × ℕ) → Prop
  | _, [] => True
  | base, (start, len) :: rest => start = base ∧ Consecutive (base + len) rest

@[simp] theorem total_nil : total [] = 0 := rfl

@[simp] theorem total_cons (r : ℕ × ℕ) (rs : List (ℕ × ℕ)) : total (r :: rs) = r.2 + total rs := by
  simp [total]

@[simp] theorem total_append (rs rs' : List (ℕ × ℕ)) :
    total (rs ++ rs') = total rs + total rs' := by
  simp [total]

/-- One more range at the end. -/
theorem Consecutive.snoc (h : Consecutive base rs) (len : ℕ) :
    Consecutive base (rs ++ [(base + total rs, len)]) := by
  induction rs generalizing base with
  | nil => exact ⟨rfl, trivial⟩
  | cons r rest ih =>
    obtain ⟨hstart, hrest⟩ := h
    refine ⟨hstart, ?_⟩
    rw [total_cons, ← Nat.add_assoc]
    exact ih hrest

/-- Ranges that follow one another lie one after the other. -/
theorem Consecutive.apart (h : Consecutive base rs) :
    rs.Pairwise Apart ∧ ∀ r ∈ rs, base ≤ r.1 ∧ r.1 + r.2 ≤ base + total rs := by
  induction rs generalizing base with
  | nil =>
    constructor
    · exact List.Pairwise.nil
    · intro r hr
      cases hr
  | cons r rest ih =>
    obtain ⟨hstart, hrest⟩ := h
    obtain ⟨hpair, hin⟩ := ih hrest
    rw [total_cons]
    constructor
    · refine List.Pairwise.cons (fun r' hr' => .inl ?_) hpair
      have := hin r' hr'
      omega
    · intro r' hr'
      rcases List.mem_cons.mp hr' with rfl | hr'
      · omega
      · have := hin r' hr'
        omega

end Ranges
