import Mathlib.Data.Nat.Basic
import Mathlib.Tactic.Ring

/-!
# Little-endian numbers in byte stores

A byte store is a function from offsets to bytes. Numbers of `w` bytes are read
and written in little-endian order. Two facts carry all later codec arguments: a
number just written is read back modulo its width, and a write leaves every number
outside its range alone.
-/

namespace Bytes

/-- The number whose `w` bytes, least significant first, are `g 0, g 1, …`. -/
def le (g : ℕ → UInt8) : ℕ → ℕ
  | 0 => 0
  | w + 1 => (g 0).toNat + 256 * le (fun k => g (k + 1)) w

/-- Byte `k` of the little-endian form of `v`. -/
def leByte (v k : ℕ) : UInt8 := UInt8.ofNat (v / 256 ^ k)

/-- The number of `w` bytes at offset `off`. -/
def num (g : ℕ → UInt8) (off w : ℕ) : ℕ := le (fun k => g (off + k)) w

/-- Copy `n` bytes of `src` to offset `off`. -/
def blit (g : ℕ → UInt8) (off n : ℕ) (src : ℕ → UInt8) : ℕ → UInt8 :=
  fun j => if off ≤ j ∧ j < off + n then src (j - off) else g j

/-- Store `v` in the `w` bytes at offset `off`. -/
def put (g : ℕ → UInt8) (off w v : ℕ) : ℕ → UInt8 := blit g off w (leByte v)

/-- Only the first `w` bytes matter. -/
theorem le_congr {g h : ℕ → UInt8} {w : ℕ} (heq : ∀ k < w, g k = h k) : le g w = le h w := by
  induction w generalizing g h with
  | zero => rfl
  | succ w ih =>
    simp only [le]
    rw [heq 0 (by omega), ih fun k hk => heq (k + 1) (by omega)]

/-- A number of `w` bytes is below `256 ^ w`. -/
theorem le_lt (g : ℕ → UInt8) (w : ℕ) : le g w < 256 ^ w := by
  induction w generalizing g with
  | zero => simp [le]
  | succ w ih =>
    have hbyte : (g 0).toNat < 256 := UInt8.toNat_lt (g 0)
    have htail := ih fun k => g (k + 1)
    simp only [le, pow_succ]
    omega

/-- Reading the bytes of `v` gives `v` modulo the width. -/
theorem le_leByte (v w : ℕ) : le (leByte v) w = v % 256 ^ w := by
  induction w generalizing v with
  | zero => simp [le, Nat.mod_one]
  | succ w ih =>
    have hshift : (fun k => leByte v (k + 1)) = leByte (v / 256) := by
      funext k
      simp only [leByte, Nat.div_div_eq_div_mul, pow_succ]
      rw [Nat.mul_comm]
    have hbyte : (leByte v 0).toNat = v % 256 := by simp [leByte]
    simp only [le]
    rw [hshift, ih, hbyte, pow_succ, Nat.mul_comm (256 ^ w), Nat.mod_mul]

/-- The range of a stored number. -/
theorem num_lt (g : ℕ → UInt8) (off w : ℕ) : num g off w < 256 ^ w := le_lt _ w

/-- A number depends only on the bytes of its range. -/
theorem num_congr {g h : ℕ → UInt8} {off w : ℕ} (heq : ∀ k < w, g (off + k) = h (off + k)) :
    num g off w = num h off w := le_congr heq

/-- Bytes that are stored. -/
theorem blit_inside (g src : ℕ → UInt8) {off n j : ℕ} (hj : off ≤ j) (hn : j < off + n) :
    blit g off n src j = src (j - off) := if_pos ⟨hj, hn⟩

/-- Bytes that stay. -/
theorem blit_outside (g src : ℕ → UInt8) {off n j : ℕ} (hj : j < off ∨ off + n ≤ j) :
    blit g off n src j = g j := if_neg (by omega)

/-- A copy depends only on the bytes copied. -/
theorem blit_congr (g : ℕ → UInt8) {src src' : ℕ → UInt8} {off n : ℕ}
    (h : ∀ k < n, src' k = src k) : blit g off n src' = blit g off n src := by
  funext j
  by_cases hj : off ≤ j ∧ j < off + n
  · rw [blit_inside _ _ hj.1 hj.2, blit_inside _ _ hj.1 hj.2, h _ (by omega)]
  · rw [blit_outside _ _ (by omega), blit_outside _ _ (by omega)]

/-- Two adjacent copies are one. -/
theorem blit_append (g : ℕ → UInt8) {src src' : ℕ → UInt8} {off n m : ℕ}
    (h : ∀ k < m, src' k = src (n + k)) :
    blit (blit g off n src) (off + n) m src' = blit g off (n + m) src := by
  funext j
  by_cases hj : off + n ≤ j ∧ j < off + n + m
  · rw [blit_inside _ _ hj.1 hj.2, blit_inside _ _ (by omega) (by omega), h _ (by omega)]
    congr 1
    omega
  · rw [blit_outside _ _ (by omega)]
    unfold blit
    have hiff : (off ≤ j ∧ j < off + (n + m)) ↔ (off ≤ j ∧ j < off + n) := by omega
    simp only [hiff]

/-- A copy leaves the numbers outside its range alone. -/
theorem num_blit_disjoint (g src : ℕ → UInt8) {off n a w : ℕ}
    (h : a + w ≤ off ∨ off + n ≤ a) : num (blit g off n src) a w = num g a w :=
  num_congr fun k hk => blit_outside g src (by omega)

/-- A number inside a copied range is read from the source. -/
theorem num_blit_inside (g src : ℕ → UInt8) {off n a w : ℕ} (ha : off ≤ a)
    (hw : a + w ≤ off + n) : num (blit g off n src) a w = num src (a - off) w := by
  apply le_congr
  intro k hk
  rw [blit_inside g src (by omega) (by omega), Nat.sub_add_comm ha]

/-- A number just written is read back modulo its width. -/
theorem num_put_same (g : ℕ → UInt8) (off w v : ℕ) : num (put g off w v) off w = v % 256 ^ w := by
  unfold put
  rw [num_blit_inside g _ le_rfl le_rfl, Nat.sub_self, ← le_leByte]
  exact le_congr fun k _ => by rw [Nat.zero_add]

/-- Writing a number leaves the others alone. -/
theorem num_put_disjoint (g : ℕ → UInt8) {off w a w' v : ℕ} (h : a + w' ≤ off ∨ off + w ≤ a) :
    num (put g off w v) a w' = num g a w' := num_blit_disjoint g _ h

end Bytes
