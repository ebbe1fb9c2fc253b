import Mathlib.Data.Nat.ModEq
import Mathlib.Logic.Function.Basic

/-!
# Ring buffers with wrapping counters

A ring of `cap` cells is indexed by two counters that count modulo `m`. The counters
are never reset, only wrapped, so the ring works as long as `cap` divides `m`. The
contents of the ring are a list; storing a byte appends to it and taking one drops
its head.
-/

namespace Ring

open Function

variable {α : Type} {cap m : ℕ}

/-- The number of cells in use between the counters `r` and `w`. -/
def used (m r w : ℕ) : ℕ := (w + m - r) % m

/-- The `n` cells from counter `r` on, oldest first. -/
def contents (cap : ℕ) (data : ℕ → α) (r n : ℕ) : List α :=
  (List.range n).map fun k => data ((r + k) % cap)

/-- Advance a counter. -/
def next (m c : ℕ) : ℕ := (c + 1) % m

theorem next_lt (hm : 0 < m) (c : ℕ) : next m c < m := Nat.mod_lt _ hm

/-- The write counter is the read counter advanced by the cells in use. -/
theorem add_used {r w : ℕ} (hr : r < m) (hw : w < m) : (r + used m r w) % m = w := by
  rw [used, Nat.add_mod_mod, show r + (w + m - r) = w + m by omega, Nat.add_mod_right,
    Nat.mod_eq_of_lt hw]

/-- The ring is empty exactly when the counters agree. -/
theorem used_eq_zero {r w : ℕ} (hr : r < m) (hw : w < m) : used m r w = 0 ↔ r = w := by
  constructor
  · intro h
    have hadd := add_used hr hw
    rw [h, Nat.add_zero, Nat.mod_eq_of_lt hr] at hadd
    exact hadd
  · rintro rfl
    rw [used, Nat.add_sub_cancel_left, Nat.mod_self]

/-- The number of cells in use is determined by the write counter. -/
theorem used_eq {r w n : ℕ} (hr : r < m) (hw : w < m) (hn : n < m) (h : (r + n) % m = w) :
    used m r w = n := by
  have hmod : (r + used m r w) ≡ (r + n) [MOD m] := (add_used hr hw).trans h.symm
  have hused : used m r w < m := Nat.mod_lt _ (by omega)
  exact Nat.ModEq.eq_of_lt_of_lt (Nat.ModEq.add_left_cancel' r hmod) hused hn

/-- Storing one element uses one more cell. -/
theorem used_push {r w : ℕ} (hr : r < m) (hw : w < m) (h : used m r w + 1 < m) :
    used m r (next m w) = used m r w + 1 := by
  refine used_eq hr (next_lt (by omega) w) h ?_
  rw [← Nat.add_assoc, Nat.add_mod, add_used hr hw, next, Nat.add_mod_mod]

/-- Taking one element frees one cell. -/
theorem used_pop {r w : ℕ} (hr : r < m) (hw : w < m) (h : r ≠ w) :
    used m (next m r) w + 1 = used m r w := by
  have hpos : used m r w ≠ 0 := fun h0 => h ((used_eq_zero hr hw).mp h0)
  have hlt : used m r w < m := Nat.mod_lt _ (by omega)
  have hpop : used m (next m r) w = used m r w - 1 := by
    refine used_eq (next_lt (by omega) r) hw (by omega) ?_
    rw [next, Nat.mod_add_mod, show r + 1 + (used m r w - 1) = r + used m r w by omega,
      add_used hr hw]
  omega

@[simp] theorem length_contents (data : ℕ → α) (r n : ℕ) :
    (contents cap data r n).length = n := by simp [contents]

/-- One more cell in use shows the element in the first cell that was free. -/
theorem contents_succ {data : ℕ → α} {r w n : ℕ} (hdvd : cap ∣ m) (hw : (r + n) % m = w) :
    contents cap data r (n + 1) = contents cap data r n ++ [data (w % cap)] := by
  have hcell : w % cap = (r + n) % cap := by rw [← hw, Nat.mod_mod_of_dvd _ hdvd]
  unfold contents
  rw [List.range_succ, List.map_append, List.map_singleton, hcell]

/-- A store into the first free cell changes no cell in use. -/
theorem contents_store {data : ℕ → α} {r w n : ℕ} (hdvd : cap ∣ m) (hw : (r + n) % m = w)
    (hn : n < cap) (x : α) :
    contents cap (update data (w % cap) x) r n = contents cap data r n := by
  have hcell : w % cap = (r + n) % cap := by rw [← hw, Nat.mod_mod_of_dvd _ hdvd]
  unfold contents
  refine List.map_congr_left fun k hk => update_of_ne ?_ _ _
  rw [hcell]
  intro hmod
  -- Two offsets below the capacity lie in different cells.
  have hlt := List.mem_range.mp hk
  have heq : k ≡ n [MOD cap] := Nat.ModEq.add_left_cancel' r hmod
  exact absurd (Nat.ModEq.eq_of_lt_of_lt heq (by omega) hn) (by omega)

/-- A store into the first free cell appends to the contents. -/
theorem contents_push {data : ℕ → α} {r w n : ℕ} (hdvd : cap ∣ m) (hw : (r + n) % m = w)
    (hn : n < cap) (x : α) :
    contents cap (update data (w % cap) x) r (n + 1) =
      contents cap data r n ++ [x] := by
  rw [contents_succ hdvd hw, contents_store hdvd hw hn, update_self]

/-- Taking the oldest element drops the head of the contents. -/
theorem contents_pop {data : ℕ → α} {r n : ℕ} (hdvd : cap ∣ m) :
    contents cap data r (n + 1) = data (r % cap) :: contents cap data (next m r) n := by
  unfold contents
  rw [List.range_succ_eq_map, List.map_cons, List.map_map, Nat.add_zero]
  congr 1
  refine List.map_congr_left fun k _ => ?_
  have hstep : (next m r + k) % cap = (r + (k + 1)) % cap := by
    rw [next, Nat.add_mod, Nat.mod_mod_of_dvd _ hdvd, ← Nat.add_mod]
    congr 1
    omega
  simp only [Function.comp_apply, hstep]

end Ring
