import RiscvKernel.Lib.Bytes
import RiscvKernel.Lib.Radix
import Mathlib.Data.Nat.Bitwise
import Mathlib.Tactic.NormNum

/-!
# Sv39 page tables in memory

The macros of `riscv.h` and `memlayout.h`: addresses, page table entries and their flags.
Addresses are 64-bit numbers. A page table is a page of 512 entries of eight bytes; the
table of a process is a radix tree of such pages, three levels deep.
-/

namespace RiscvKernel

/-! ## Addresses -/

/-- Bytes per page. -/
def pgsize : ℕ := 4096

/-- One beyond the highest virtual address. -/
def maxva : ℕ := 2 ^ 38

/-- The address of the trampoline page, in every address space. -/
def trampolineVa : ℕ := maxva - pgsize

/-- The address of the trapframe page, in every user address space. -/
def trapframeVa : ℕ := trampolineVa - pgsize

/-- Where physical memory begins. -/
def kernbase : ℕ := 0x80000000

/-- Where physical memory ends. -/
def physstop : ℕ := kernbase + 128 * 1024 * 1024

/-- `PGROUNDUP`, in 64 bits. -/
def pgroundup (sz : ℕ) : ℕ := (sz + pgsize - 1) % 2 ^ 64 / pgsize * pgsize

/-- `PGROUNDDOWN`. -/
def pgrounddown (a : ℕ) : ℕ := a / pgsize * pgsize

/-- `PX`: the index of an address at a level. -/
def px (level va : ℕ) : Fin 512 := ⟨va / 2 ^ (12 + 9 * level) % 512, Nat.mod_lt _ (by decide)⟩

/-! ## Entries -/

/-- Valid. -/
def pteV : ℕ := 1

/-- Readable. -/
def pteR : ℕ := 2

/-- Writable. -/
def pteW : ℕ := 4

/-- Executable. -/
def pteX : ℕ := 8

/-- Accessible to user code. -/
def pteU : ℕ := 16

/-- `PA2PTE`, in 64 bits. -/
def pa2pte (pa : ℕ) : ℕ := pa / 2 ^ 12 * 2 ^ 10 % 2 ^ 64

/-- `PTE2PA`, in 64 bits. -/
def pte2pa (pte : ℕ) : ℕ := pte / 2 ^ 10 * 2 ^ 12 % 2 ^ 64

/-- `PTE_FLAGS`. -/
def pteFlags (pte : ℕ) : ℕ := pte % 2 ^ 10

/-- `*pte & flag`, as a truth value. -/
def hasFlag (pte flag : ℕ) : Bool := pte &&& flag != 0

/-- The address of an entry of a page table. -/
def pteAddr (pagetable : ℕ) (i : Fin 512) : ℕ := pagetable + 8 * i

/-- Entry `i` of the page table at an address. -/
def pteAt (mem : ℕ → UInt8) (pagetable : ℕ) (i : Fin 512) : ℕ :=
  Bytes.num mem (pteAddr pagetable i) 8

/-- The page that an entry points to. -/
def pteChild (mem : ℕ → UInt8) (pagetable : ℕ) (i : Fin 512) : Option ℕ :=
  if hasFlag (pteAt mem pagetable i) pteV then some (pte2pa (pteAt mem pagetable i)) else none

/-- The page of a physical address. -/
def InPage (a x : ℕ) : Prop := a ≤ x ∧ x < a + pgsize

/-- An entry holds a page. -/
theorem pte2pa_mod (pte : ℕ) : pte2pa pte % pgsize = 0 := by
  unfold pte2pa pgsize
  rw [show (2 : ℕ) ^ 64 = 2 ^ 12 * 2 ^ 52 by norm_num, Nat.mul_comm, Nat.mul_mod_mul_left]
  exact Nat.mul_mod_right _ _

theorem pteFlags_lt (pte : ℕ) : pteFlags pte < 2 ^ 10 := Nat.mod_lt _ (by decide)

section Encoding

variable {pa flags : ℕ}

/-- The flags occupy the bits that the page number leaves free. -/
theorem pa2pte_or (hpa : pa < 2 ^ 64) (hflags : flags < 2 ^ 10) :
    pa2pte pa ||| flags = 2 ^ 10 * (pa / 2 ^ 12) + flags := by
  have hlt : pa / 2 ^ 12 * 2 ^ 10 < 2 ^ 64 := by omega
  rw [pa2pte, Nat.mod_eq_of_lt hlt, Nat.mul_comm, ← Nat.two_pow_add_eq_or_of_lt hflags]

/-- An entry fits its eight bytes. -/
theorem pa2pte_or_lt (hpa : pa < 2 ^ 64) (hflags : flags < 2 ^ 10) :
    pa2pte pa ||| flags < 2 ^ 64 := by
  rw [pa2pte_or hpa hflags]
  omega

/-- The page of an entry is read back. -/
theorem pte2pa_or (hpa : pa < 2 ^ 64) (halign : pa % pgsize = 0) (hflags : flags < 2 ^ 10) :
    pte2pa (pa2pte pa ||| flags) = pa := by
  rw [pa2pte_or hpa hflags, pte2pa]
  unfold pgsize at halign
  omega

/-- The flags of an entry are read back. -/
theorem pteFlags_or (pa : ℕ) (hflags : flags < 2 ^ 10) :
    pteFlags (pa2pte pa ||| flags) = flags := by
  have hlow : pa2pte pa % 2 ^ 10 = 0 := by
    unfold pa2pte
    omega
  rw [pteFlags, Nat.or_mod_two_pow, hlow, Nat.zero_or, Nat.mod_eq_of_lt hflags]

end Encoding

@[simp] theorem hasFlag_zero (flag : ℕ) : hasFlag 0 flag = false := by simp [hasFlag]

/-- A flag test reads the flag bits only. -/
theorem hasFlag_pteFlags {pte flag : ℕ} (hflag : flag < 2 ^ 10) :
    hasFlag (pteFlags pte) flag = hasFlag pte flag := by
  have hand : pteFlags pte &&& flag = pte &&& flag := by
    have hle : pte &&& flag < 2 ^ 10 := lt_of_le_of_lt Nat.and_le_right hflag
    have hmod := Nat.and_mod_two_pow (a := pte) (b := flag) (n := 10)
    rw [Nat.mod_eq_of_lt hle, Nat.mod_eq_of_lt hflag] at hmod
    exact hmod.symm
  rw [hasFlag, hand, hasFlag]

/-- Setting the valid flag of a valid entry changes nothing. -/
theorem pteFlags_or_valid {pte : ℕ} (h : hasFlag pte pteV = true) :
    pteFlags pte ||| pteV = pteFlags pte := by
  have hodd : pteFlags pte % 2 = 1 := by
    rw [← hasFlag_pteFlags (by decide), hasFlag, pteV, Nat.and_one_is_mod] at h
    rcases Nat.mod_two_eq_zero_or_one (pteFlags pte) with h0 | h1
    · rw [h0] at h
      cases h
    · exact h1
  have hsplit : pteFlags pte = 2 ^ 1 * (pteFlags pte / 2) ||| 1 := by
    rw [← Nat.two_pow_add_eq_or_of_lt (by decide)]
    omega
  rw [pteV, hsplit, Nat.or_assoc, Nat.or_self]

/-- A flag test on a composed entry reads the flags it was composed of. -/
theorem hasFlag_or (pa : ℕ) {flags flag : ℕ} (hflags : flags < 2 ^ 10) (hflag : flag < 2 ^ 10) :
    hasFlag (pa2pte pa ||| flags) flag = hasFlag flags flag := by
  rw [← hasFlag_pteFlags hflag, pteFlags_or pa hflags]

/-- A flag is set in a union if it is set in one of the parts. -/
theorem hasFlag_union (a b flag : ℕ) :
    hasFlag (a ||| b) flag = (hasFlag a flag || hasFlag b flag) := by
  rw [Bool.eq_iff_iff]
  simp only [hasFlag, Nat.and_or_distrib_right, bne_iff_ne, ne_eq, Nat.or_eq_zero_iff,
    Bool.or_eq_true]
  tauto

/-- Clearing the user flag keeps the page and the valid flag. -/
theorem clear_pteU {e : ℕ} (he : e < 2 ^ 64) :
    pte2pa (e &&& (2 ^ 64 - 1 - pteU)) = pte2pa e ∧
      hasFlag (e &&& (2 ^ 64 - 1 - pteU)) pteV = hasFlag e pteV ∧
      hasFlag (e &&& (2 ^ 64 - 1 - pteU)) pteU = false := by
  refine ⟨?_, ?_, ?_⟩
  · have hmask : (2 ^ 64 - 1 - pteU) / 2 ^ 10 = 2 ^ 54 - 1 := by decide
    rw [pte2pa, pte2pa, ← Nat.shiftRight_eq_div_pow, Nat.shiftRight_and_distrib,
      Nat.shiftRight_eq_div_pow, Nat.shiftRight_eq_div_pow, hmask,
      Nat.and_two_pow_sub_one_of_lt_two_pow (by omega)]
  · rw [hasFlag, hasFlag, Nat.and_assoc]
    rfl
  · have hmask : (2 ^ 64 - 1 - pteU) &&& pteU = 0 := by decide
    rw [hasFlag, Nat.and_assoc, hmask, Nat.and_zero]
    rfl

/-! ## Memory -/

/-- Entries lie in their table. -/
theorem pteAddr_inPage (pt : ℕ) (i : Fin 512) {k : ℕ} (hk : k < 8) :
    InPage pt (pteAddr pt i + k) := by
  have := i.isLt
  unfold InPage pteAddr pgsize
  omega

/-- Two pages that share a byte are the same. -/
theorem InPage.eq {a b x : ℕ} (ha : InPage a x) (hb : InPage b x) (halign : a % pgsize = 0)
    (hblign : b % pgsize = 0) : a = b := by
  unfold InPage pgsize at *
  omega

/-- The entries of a page depend on its bytes only. -/
theorem pteAt_congr {mem mem' : ℕ → UInt8} {pt : ℕ}
    (h : ∀ x, InPage pt x → mem' x = mem x) (i : Fin 512) :
    pteAt mem' pt i = pteAt mem pt i :=
  Bytes.num_congr fun _ hk => h _ (pteAddr_inPage pt i hk)

/-- Children depend on the table only. -/
theorem pteChild_congr {mem mem' : ℕ → UInt8} {pt : ℕ}
    (h : ∀ x, InPage pt x → mem' x = mem x) : pteChild mem' pt = pteChild mem pt := by
  funext i
  rw [pteChild, pteChild, pteAt_congr h]

/-- Storing an entry changes that entry of its table. -/
theorem pteAt_put {mem : ℕ → UInt8} {pt v : ℕ} {i : Fin 512} (hv : v < 2 ^ 64) (j : Fin 512) :
    pteAt (Bytes.put mem (pteAddr pt i) 8 v) pt j = if j = i then v else pteAt mem pt j := by
  unfold pteAt
  by_cases hj : j = i
  · rw [if_pos hj, hj, Bytes.num_put_same]
    exact Nat.mod_eq_of_lt (by norm_num at hv ⊢; exact hv)
  · rw [if_neg hj]
    refine Bytes.num_put_disjoint mem ?_
    unfold pteAddr
    omega

/-- Storing an entry changes one child. -/
theorem pteChild_put {mem : ℕ → UInt8} {pt v : ℕ} {i : Fin 512} (hv : v < 2 ^ 64) (j : Fin 512) :
    pteChild (Bytes.put mem (pteAddr pt i) 8 v) pt j =
      if j = i then (if hasFlag v pteV then some (pte2pa v) else none) else pteChild mem pt j := by
  unfold pteChild
  rw [pteAt_put hv]
  by_cases hj : j = i
  · simp [hj]
  · simp [hj]

/-- Storing an entry leaves the other pages alone. -/
theorem put_outside {mem : ℕ → UInt8} {pt v x : ℕ} {i : Fin 512} (hx : ¬ InPage pt x) :
    Bytes.put mem (pteAddr pt i) 8 v x = mem x := by
  refine Bytes.blit_outside mem _ ?_
  have := i.isLt
  unfold InPage pgsize at hx
  unfold pteAddr
  omega

/-- A page of zeros has no valid entry. -/
theorem pteAt_zero {mem : ℕ → UInt8} {pt : ℕ} (h : ∀ x, InPage pt x → mem x = 0)
    (i : Fin 512) : pteAt mem pt i = 0 := by
  have hzero : pteAt mem pt i = Bytes.num (fun _ => 0) (pteAddr pt i) 8 :=
    Bytes.num_congr fun k hk => h _ (pteAddr_inPage pt i hk)
  rw [hzero]
  simp [Bytes.num, Bytes.le]

end RiscvKernel
