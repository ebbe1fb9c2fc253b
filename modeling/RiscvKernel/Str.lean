import RiscvKernel.Lib.Bytes

/-!
# Moving bytes

`memmove` of `string.c` and of `ulib.c`, as loops over a memory of bytes. Both choose the
direction of the copy from the two pointers, by different tests. Pointers have 64 bits, so the
end of a range may be the address 0 behind the last byte of the memory.
-/

namespace RiscvKernel

open Function
open Bytes (blit blit_inside blit_outside)

/-- `while(n-- > 0) *d++ = *s++`. -/
def copyUp : ℕ → (ℕ → UInt8) → ℕ → ℕ → ℕ → UInt8
  | 0, mem, _, _ => mem
  | n + 1, mem, d, s =>
    copyUp n (update mem d (mem s)) ((d + 1) % 2 ^ 64) ((s + 1) % 2 ^ 64)

/-- The address one byte below. -/
def decAddr (p : ℕ) : ℕ :=
  if p = 0 then 2 ^ 64 - 1 else p - 1

/-- `while(n-- > 0) *--d = *--s`. -/
def copyDown : ℕ → (ℕ → UInt8) → ℕ → ℕ → ℕ → UInt8
  | 0, mem, _, _ => mem
  | n + 1, mem, d, s =>
    copyDown n (update mem (decAddr d) (mem (decAddr s))) (decAddr d) (decAddr s)

/-- `memmove` of the kernel. -/
def Str.memmove (mem : ℕ → UInt8) (dst src n : ℕ) : ℕ → UInt8 :=
  if n = 0 then mem
  else if src < dst ∧ (src + n) % 2 ^ 64 > dst then
    copyDown n mem ((dst + n) % 2 ^ 64) ((src + n) % 2 ^ 64)
  else copyUp n mem dst src

/-- `memmove` of the user library; `n` is an `int`. -/
def Ulib.memmove (mem : ℕ → UInt8) (vdst vsrc : ℕ) (n : ℤ) : ℕ → UInt8 :=
  if vsrc > vdst then copyUp n.toNat mem vdst vsrc
  else copyDown n.toNat mem ((vdst + n) % 2 ^ 64).toNat ((vsrc + n) % 2 ^ 64).toNat

section Loops

variable {mem : ℕ → UInt8} {n d s : ℕ}

theorem decAddr_end (a : ℕ) :
    decAddr ((a + (n + 1)) % 2 ^ 64) = (a + n) % 2 ^ 64 := by
  unfold decAddr
  split <;> omega

/-- Upwards, a byte of the source is read before it is overwritten if the source is not below
the destination. -/
theorem copyUp_eq (hd : d + n ≤ 2 ^ 64) (hs : s + n ≤ 2 ^ 64) (hdir : d ≤ s ∨ s + n ≤ d) :
    copyUp n mem d s = blit mem d n fun k => mem (s + k) := by
  induction n generalizing mem d s with
  | zero =>
    funext a
    rw [blit_outside _ _ (by omega)]
    rfl
  | succ n ih =>
    rw [copyUp]
    cases n with
    | zero =>
      funext a
      rw [copyUp]
      by_cases ha : a = d
      · rw [ha, update_self, blit_inside _ _ le_rfl (by omega), Nat.sub_self,
          Nat.add_zero]
      · rw [update_of_ne ha, blit_outside _ _ (by omega)]
    | succ n =>
      rw [Nat.mod_eq_of_lt (by omega), Nat.mod_eq_of_lt (by omega),
        ih (by omega) (by omega) (by omega)]
      funext a
      by_cases ha : d + 1 ≤ a ∧ a < d + 1 + (n + 1)
      · rw [blit_inside _ _ ha.1 ha.2, blit_inside _ _ (by omega) (by omega),
          update_of_ne (by omega)]
        congr 1
        omega
      · rw [blit_outside _ _ (by omega)]
        by_cases had : a = d
        · rw [had, update_self, blit_inside _ _ le_rfl (by omega), Nat.sub_self,
            Nat.add_zero]
        · rw [update_of_ne had, blit_outside _ _ (by omega)]

/-- Downwards, a byte of the source is read before it is overwritten if the source is not above
the destination. -/
theorem copyDown_eq (hd : d + n ≤ 2 ^ 64) (hs : s + n ≤ 2 ^ 64) (hdir : s ≤ d ∨ d + n ≤ s) :
    copyDown n mem ((d + n) % 2 ^ 64) ((s + n) % 2 ^ 64) =
      blit mem d n fun k => mem (s + k) := by
  induction n generalizing mem with
  | zero =>
    funext a
    rw [blit_outside _ _ (by omega)]
    rfl
  | succ n ih =>
    rw [copyDown, decAddr_end d, decAddr_end s, ih (by omega) (by omega) (by omega),
      Nat.mod_eq_of_lt (by omega), Nat.mod_eq_of_lt (by omega)]
    funext a
    by_cases ha : d ≤ a ∧ a < d + n
    · rw [blit_inside _ _ ha.1 ha.2, blit_inside _ _ (by omega) (by omega),
        update_of_ne (by omega)]
    · rw [blit_outside _ _ (by omega)]
      by_cases had : a = d + n
      · rw [had, update_self, blit_inside _ _ (by omega) (by omega),
          Nat.add_sub_cancel_left]
      · rw [update_of_ne had, blit_outside _ _ (by omega)]

end Loops

section Memmove

variable {mem : ℕ → UInt8} {dst src n : ℕ}

/-- `memmove` of the kernel is one copy of the original bytes. -/
theorem Str.memmove_eq (hsrc : src + n ≤ 2 ^ 64) (hdst : dst + n ≤ 2 ^ 64) :
    Str.memmove mem dst src n = blit mem dst n fun k => mem (src + k) := by
  unfold Str.memmove
  split
  · rename_i hzero
    funext a
    rw [blit_outside _ _ (by omega)]
  · split
    · rename_i hbelow
      exact copyDown_eq hdst hsrc (.inl (by omega))
    · -- The test fails for a source below the destination only if the ranges are disjoint: the
      -- end of the source cannot wrap to 0, or the destination would not fit behind it.
      rename_i hpos hnot
      exact copyUp_eq hdst hsrc (by omega)

/-- `memmove` of the user library is one copy of the original bytes. -/
theorem Ulib.memmove_eq (hsrc : src + n ≤ 2 ^ 64) (hdst : dst + n ≤ 2 ^ 64) :
    Ulib.memmove mem dst src n = blit mem dst n fun k => mem (src + k) := by
  have hend : ∀ a : ℕ, (((a : ℤ) + (n : ℤ)) % 2 ^ 64).toNat = (a + n) % 2 ^ 64 := by
    intro a
    omega
  unfold Ulib.memmove
  rw [hend, hend, Int.toNat_natCast]
  split
  · exact copyUp_eq hdst hsrc (.inl (by omega))
  · exact copyDown_eq hdst hsrc (.inl (by omega))

/-- Both functions move the bytes, whatever the overlap, and change nothing else. -/
theorem memmove_correct (mem : ℕ → UInt8) (dst src n : ℕ) (hsrc : src + n ≤ 2 ^ 64)
    (hdst : dst + n ≤ 2 ^ 64) :
    (∀ i < n, Str.memmove mem dst src n (dst + i) = mem (src + i)) ∧
      (∀ a, a < dst ∨ dst + n ≤ a → Str.memmove mem dst src n a = mem a) ∧
      (∀ i < n, Ulib.memmove mem dst src n (dst + i) = mem (src + i)) ∧
      (∀ a, a < dst ∨ dst + n ≤ a → Ulib.memmove mem dst src n a = mem a) ∧
      Str.memmove mem dst src n = Ulib.memmove mem dst src n := by
  have hinside : ∀ i < n, blit mem dst n (fun k => mem (src + k)) (dst + i) =
      mem (src + i) := by
    intro i hi
    rw [blit_inside _ _ (by omega) (by omega), Nat.add_sub_cancel_left]
  have houtside : ∀ a, a < dst ∨ dst + n ≤ a →
      blit mem dst n (fun k => mem (src + k)) a = mem a :=
    fun a ha => blit_outside _ _ ha
  rw [Str.memmove_eq hsrc hdst, Ulib.memmove_eq hsrc hdst]
  exact ⟨hinside, houtside, hinside, houtside, rfl⟩

/-- A range at the end of the memory, moved up by one byte. -/
theorem memmove_correct_overlap :
    Str.memmove (fun a => UInt8.ofNat a) (2 ^ 64 - 3) (2 ^ 64 - 4) 3 (2 ^ 64 - 3 + 2) =
      UInt8.ofNat (2 ^ 64 - 4 + 2) :=
  (memmove_correct _ (2 ^ 64 - 3) (2 ^ 64 - 4) 3 (by omega) (by omega)).1 2 (by omega)

end Memmove

end RiscvKernel
