import RiscvKernel.Fs.Model
import Mathlib.Tactic.Cases

/-!
# The block layer

What the functions on single blocks compute. Reading a buffer and releasing it
unchanged does nothing; changing, logging and releasing it is one write. `balloc`
takes the first free block of the map and zeroes it, `bfree` clears a bit.
-/

namespace RiscvKernel

open Threads

/-! ## One block -/

/-- A logged write of one block. -/
def Fs.write (s : Fs) (b : ℕ) (d : Block) : Fs :=
  { s with blocks := Function.update s.blocks b d, logged := b :: s.logged }

namespace Fs

variable (s : Fs) (b : ℕ) (d : Block)

@[simp] theorem write_itable : (s.write b d).itable = s.itable := rfl

@[simp] theorem write_blocks : (s.write b d).blocks = Function.update s.blocks b d := rfl

variable {s b d}

/-- Releasing a buffer as it was read restores the state. -/
theorem release_unchanged :
    ({ s with held := b :: s.held } : Fs).release ⟨b, s.blocks b, s.blocks b, true⟩ = s := by
  simp [Fs.release]

/-- Releasing a changed and logged buffer is a write. -/
theorem release_logged :
    ({ s with held := b :: s.held, logged := b :: s.logged } : Fs).release
      ⟨b, s.blocks b, d, true⟩ = s.write b d := by
  simp [Fs.release, Fs.write]

end Fs

/-- Reading a block that is not held. -/
theorem fsRead_eq {s : Fs} {b : ℕ} (hb : b ∉ s.held) :
    fsRead b s = .ok ⟨b, s.blocks b, s.blocks b, true⟩ { s with held := b :: s.held } := by
  simp [fsRead, hb]

/-- Change, log and release a block. -/
theorem write_eq {s : Fs} {b : ℕ} (f : Block → Block) (hb : b ∉ s.held) :
    (do
      let bp ← fsRead b
      let bp ← fsLog (bp.modify f)
      fsRelse bp : FsM Unit) s = .ok () (s.write b (f (s.blocks b))) := by
  simp [fsRead_eq hb, fsLog, fsRelse, Bp.modify, Fs.release, Fs.write]

/-- `bzero`. -/
theorem bzero_eq {s : Fs} {b : ℕ} (hb : b ∉ s.held) :
    bzero b s = .ok () (s.write b Block.zero) := write_eq (fun _ => Block.zero) hb

/-! ## The free map -/

/-- The bit of block `b` in the free map. -/
def usedBit (sb : Superblock) (blocks : ℕ → Block) (b : ℕ) : Bool :=
  (blocks (sb.bblock b)).bit (b % bpb)

/-- The state after `balloc` has taken block `a`. -/
def Fs.take (s : Fs) (sb : Superblock) (a : ℕ) : Fs :=
  (s.write (sb.bblock a) ((s.blocks (sb.bblock a)).markBit (a % bpb))).write a Block.zero

/-- The state after `bfree` has released block `a`. -/
def Fs.give (s : Fs) (sb : Superblock) (a : ℕ) : Fs :=
  s.write (sb.bblock a) ((s.blocks (sb.bblock a)).clearBit (a % bpb))

/-- The inner loop of `balloc` finds the first clear bit. -/
theorem scanBits_some {data : Block} {lim n bi a : ℕ} (h : scanBits data lim n bi = some a) :
    bi ≤ a ∧ a < bi + n ∧ a < lim ∧ data.bit a = false ∧
      ∀ j, bi ≤ j → j < a → data.bit j = true := by
  induction n generalizing bi with
  | zero => cases h
  | succ n ih =>
    rw [scanBits] at h
    split at h
    · rename_i hlim
      split at h
      · rename_i hbit
        cases h
        exact ⟨le_rfl, by omega, hlim, hbit, fun j h1 h2 => by omega⟩
      · rename_i hbit
        obtain ⟨h1, h2, h3, h4, h5⟩ := ih h
        refine ⟨by omega, by omega, h3, h4, fun j hj hja => ?_⟩
        rcases Nat.eq_or_lt_of_le hj with rfl | hlt
        · simpa using hbit
        · exact h5 j (by omega) hja
    · cases h

/-- Without a clear bit the inner loop of `balloc` finds nothing. -/
theorem scanBits_none {data : Block} {lim n bi : ℕ} (h : scanBits data lim n bi = none) :
    ∀ j, bi ≤ j → j < bi + n → j < lim → data.bit j = true := by
  induction n generalizing bi with
  | zero =>
    intro j h1 h2
    omega
  | succ n ih =>
    intro j h1 h2 h3
    rw [scanBits] at h
    split at h
    · split at h
      · cases h
      · rename_i hbit
        rcases Nat.eq_or_lt_of_le h1 with rfl | hlt
        · simpa using hbit
        · exact ih h j (by omega) (by omega) h3
    · omega

variable {sb : Superblock} {s : Fs}

/-- No buffer of the free map and no free block is held. -/
def HeldUsed (sb : Superblock) (s : Fs) : Prop :=
  ∀ b ∈ s.held, (b < sb.bmapstart ∨ sb.nmeta ≤ b) ∧ usedBit sb s.blocks b = true

/-- No block of the free map is held. -/
theorem HeldUsed.bblock_notMem (h : HeldUsed sb s) {b : ℕ} (hb : b < sb.size) :
    sb.bblock b ∉ s.held := by
  intro hmem
  have hout := (h _ hmem).1
  have hlt := Superblock.bblock_lt_nmeta hb
  have hle : sb.bmapstart ≤ sb.bblock b := Nat.le_add_left _ _
  omega

/-- What `balloc` does. -/
def Ballocs (sb : Superblock) (s : Fs) (o : Outcome Fs ℕ) : Prop :=
  (o = .ok 0 { s with denied := s.denied + 1 } ∧ ∀ b < sb.size, usedBit sb s.blocks b = true) ∨
    ∃ a < sb.size, usedBit sb s.blocks a = false ∧ (∀ b < a, usedBit sb s.blocks b = true) ∧
      o = .ok a (s.take sb a)

/-- The loop of `balloc`. -/
theorem ballocFrom_spec (hheld : HeldUsed sb s) {n q : ℕ} (hn : q + n = (sb.size + bpb - 1) / bpb)
    (hbefore : ∀ b < q * bpb, b < sb.size → usedBit sb s.blocks b = true) :
    Ballocs sb s (ballocFrom sb n (q * bpb) s) := by
  induction n generalizing q with
  | zero =>
    refine .inl ⟨rfl, fun b hb => hbefore b ?_ hb⟩
    have hq : q = (sb.size + bpb - 1) / bpb := by omega
    rw [hq]
    unfold bpb
    omega
  | succ n ih =>
    have hqsize : q * bpb < sb.size := by
      have : q + 1 ≤ (sb.size + bpb - 1) / bpb := by omega
      have := (Nat.le_div_iff_mul_le (by decide : 0 < bpb)).mp this
      unfold bpb at this ⊢
      omega
    have hblock : ∀ bi < bpb, sb.bblock (q * bpb + bi) = sb.bblock (q * bpb) := by
      intro bi hbi
      unfold Superblock.bblock
      unfold bpb at hbi ⊢
      omega
    have hbit : ∀ bi < bpb, usedBit sb s.blocks (q * bpb + bi) =
        (s.blocks (sb.bblock (q * bpb))).bit bi := by
      intro bi hbi
      unfold usedBit
      rw [hblock bi hbi, Nat.mul_add_mod', Nat.mod_eq_of_lt hbi]
    rw [ballocFrom]
    simp only [Seq.bind_apply, fsRead_eq (hheld.bblock_notMem hqsize), Seq.ok_bind]
    cases hscan : scanBits (s.blocks (sb.bblock (q * bpb))) (sb.size - q * bpb) bpb 0 with
    | some bi =>
      obtain ⟨-, hlt, hlim, hclear, hfirst⟩ := scanBits_some hscan
      have hbi : bi < bpb := by omega
      have hfree : usedBit sb s.blocks (q * bpb + bi) = false := by
        rw [hbit bi hbi]
        exact hclear
      refine .inr ⟨q * bpb + bi, by omega, hfree, ?_, ?_⟩
      · intro b hb
        rcases Nat.lt_or_ge b (q * bpb) with hlt' | hge
        · exact hbefore b hlt' (by omega)
        · have := hfirst (b - q * bpb) (Nat.zero_le _) (by omega)
          rw [← hbit _ (by omega)] at this
          rwa [Nat.add_sub_cancel' hge] at this
      · have hnew : q * bpb + bi ∉ s.held := by
          intro hmem
          rw [(hheld _ hmem).2] at hfree
          cases hfree
        simp only [fsLog, fsRelse, Bp.modify, Seq.modify_apply, Seq.ok_bind, Fs.release_logged,
          Seq.bind_apply]
        rw [bzero_eq (by exact hnew)]
        simp only [Seq.ok_bind, Seq.pure_apply, Fs.take]
        rw [hblock bi hbi, Nat.mul_add_mod', Nat.mod_eq_of_lt hbi]
    | none =>
      simp only [fsRelse, Seq.bind_apply, Seq.modify_apply, Seq.ok_bind, Fs.release_unchanged]
      rw [← Nat.succ_mul]
      refine ih (by omega) fun b hb hsize => ?_
      rcases Nat.lt_or_ge b (q * bpb) with hlt' | hge
      · exact hbefore b hlt' hsize
      · rw [Nat.succ_mul] at hb
        have := scanBits_none hscan (b - q * bpb) (Nat.zero_le _) (by omega) (by omega)
        rw [← hbit _ (by omega)] at this
        rwa [Nat.add_sub_cancel' hge] at this

end RiscvKernel
