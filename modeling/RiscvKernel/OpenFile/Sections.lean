import RiscvKernel.OpenFile.Model
import RiscvKernel.Lib.Ranges
import RiscvKernel.Fs.File

/-!
# What one section moves

The results of `readi`, `writei` and `piperead` and the memory they reach, in any state of the
file system and of the pipe; and what one section of a sharer does to the open file.
-/

namespace RiscvKernel

open Threads
open Threads.Seq (bind_eq_ok)

section Bounds

variable {sb : Superblock} {e : InodeId} {s s' : Fs} {off n : ℕ}

/-- The loop of `readi` moves at most what is left, and stores it where it belongs. -/
theorem readiLoop_ok {target : Target} {fuel tot pos dst : ℕ} {mem mem' : Mem} {r : ℤ}
    (htot : tot ≤ n) (h : readiLoop sb e target n fuel tot pos dst mem s = .ok (r, mem') s') :
    (r = -1 ∨ (0 ≤ r ∧ r ≤ n)) ∧
      ∀ x, x < dst ∨ dst + (n - tot) ≤ x → mem' x = mem x := by
  induction fuel generalizing tot pos dst mem s with
  | zero =>
    cases h
    exact ⟨.inr ⟨by omega, by omega⟩, fun _ _ => rfl⟩
  | succ fuel ih =>
    rw [readiLoop] at h
    split at h
    · rename_i hlt
      obtain ⟨addr, s1, -, h⟩ := bind_eq_ok h
      split at h
      · cases h
        exact ⟨.inr ⟨by omega, by omega⟩, fun _ _ => rfl⟩
      obtain ⟨bp, s2, -, h⟩ := bind_eq_ok h
      obtain ⟨-, s3, -, h⟩ := bind_eq_ok h
      have hm : min (n - tot) (bsize - pos % bsize) ≤ n - tot := Nat.min_le_left _ _
      generalize min (n - tot) (bsize - pos % bsize) = m at h hm
      have hcopy := (target.copyout_spec dst m).1
      have hblit : ∀ x, x < dst ∨ dst + (n - tot) ≤ x → Bytes.blit mem dst (target.copyout dst m).1
          (fun k => bp.data.byte (pos % bsize + k)) x = mem x := by
        intro x hx
        apply Bytes.blit_outside
        omega
      split at h
      · obtain ⟨hr, hout⟩ := ih (by omega) h
        refine ⟨hr, fun x hx => (hout x ?_).trans (hblit x hx)⟩
        omega
      · cases h
        exact ⟨.inl rfl, hblit⟩
    · cases h
      exact ⟨.inr ⟨by omega, by omega⟩, fun _ _ => rfl⟩

/-- `readi` delivers at most what it is asked for and what the file holds. -/
theorem readi_ok {target : Target} {dst : ℕ} {mem mem' : Mem} {r : ℤ}
    (h : readi sb e target dst off n mem s = .ok (r, mem') s') :
    (r = -1 ∨ (0 ≤ r ∧ r ≤ n)) ∧ (0 < r → off + r < 2 ^ 32) ∧
      ∀ x, x < dst ∨ dst + n ≤ x → mem' x = mem x := by
  obtain ⟨ip, s1, -, h⟩ := bind_eq_ok h
  dsimp only at h
  split at h
  · cases h
    exact ⟨.inr ⟨le_rfl, by omega⟩, fun hr => absurd hr (lt_irrefl 0), fun _ _ => rfl⟩
  · rename_i hgood
    obtain ⟨hr, hout⟩ := readiLoop_ok (Nat.zero_le _) h
    by_cases hclamp : off + n > ip.d.size.toNat
    · rw [if_pos hclamp] at hr hout
      refine ⟨?_, ?_, fun x hx => hout x ?_⟩ <;> omega
    · rw [if_neg hclamp] at hr hout
      refine ⟨?_, ?_, fun x hx => hout x ?_⟩ <;> omega

/-- The loop of `writei` moves at most what is left. -/
theorem writeiLoop_ok {source : Source} {fuel tot pos src : ℕ} {r : ℕ × ℕ} (htot : tot ≤ n)
    (h : writeiLoop sb e source n fuel tot pos src s = .ok r s') : r.1 ≤ n := by
  induction fuel generalizing tot pos src s with
  | zero =>
    cases h
    exact htot
  | succ fuel ih =>
    rw [writeiLoop] at h
    split at h
    · obtain ⟨addr, s1, -, h⟩ := bind_eq_ok h
      split at h
      · cases h
        exact htot
      obtain ⟨bp, s2, -, h⟩ := bind_eq_ok h
      have hm : min (n - tot) (bsize - pos % bsize) ≤ n - tot := Nat.min_le_left _ _
      generalize min (n - tot) (bsize - pos % bsize) = m at h hm
      dsimp only at h
      split at h
      · obtain ⟨-, s3, -, h⟩ := bind_eq_ok h
        obtain ⟨-, s4, -, h⟩ := bind_eq_ok h
        exact ih (by omega) h
      · obtain ⟨-, s3, -, h⟩ := bind_eq_ok h
        cases h
        exact htot
    · cases h
      exact htot

/-- `writei` stores at most what it is asked to, below the largest size of a file. -/
theorem writei_ok {source : Source} {src : ℕ} {r : ℤ} (hn : n < 2 ^ 32)
    (h : writei sb e source src off n s = .ok r s') :
    (r = -1 ∨ (0 ≤ r ∧ r ≤ n)) ∧ (0 < r → off + r ≤ maxfile * bsize) := by
  obtain ⟨ip, s1, -, h⟩ := bind_eq_ok h
  split at h
  · cases h
    exact ⟨.inl rfl, fun hr => absurd hr (by decide)⟩
  · split at h
    · cases h
      exact ⟨.inl rfl, fun hr => absurd hr (by decide)⟩
    · obtain ⟨r', s2, hloop, h⟩ := bind_eq_ok h
      obtain ⟨-, s3, -, h⟩ := bind_eq_ok h
      obtain ⟨-, s4, -, h⟩ := bind_eq_ok h
      have hr' := writeiLoop_ok (Nat.zero_le _) hloop
      cases h
      refine ⟨?_, ?_⟩ <;> omega

end Bounds

section PipeBounds

variable {P : Type} [DecidableEq P] {dst : ℕ → Bool} {p : P} {s t : PipeState P} {r : ℤ}

end PipeBounds

end RiscvKernel
