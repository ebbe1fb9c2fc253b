import RiscvKernel.Vm.User

/-!
# Strings from user memory

`copyinstr` of `vm.c` and the functions of `syscall.c` over it, storing byte by byte into a buffer
of the kernel. They are compared with a byte-wise reading of user memory: a user address has a
byte if a page with `PTE_U` is mapped there.
-/

namespace RiscvKernel

open Threads Function
open Threads.Seq (bind_apply ok_bind gets_apply)

/-! ## The functions -/

/-- Read a byte. -/
def loadByte (a : ℕ) : VmM UInt8 := Seq.gets fun s => s.mem a

/-- Write a byte. -/
def storeByte (a : ℕ) (c : UInt8) : VmM Unit :=
  Seq.modify fun s => s.setMem (update s.mem a c)

/-- The inner loop of `copyinstr`: `got_null`, and `dst` and `max` after the loop. -/
def copyinstrPage : ℕ → ℕ → ℕ → ℕ → VmM (Bool × ℕ × ℕ)
  | 0, _, dst, max => return (false, dst, max)
  | n + 1, p, dst, max => do
    let c ← loadByte p
    if c = 0 then
      storeByte dst 0
      return (true, dst, max)
    else
      storeByte dst c
      copyinstrPage n (p + 1) (dst + 1) (max - 1)

/-- The outer loop of `copyinstr`; `fuel` bounds the number of pages. -/
def copyinstrToFrom (pagetable : ℕ) : ℕ → ℕ → ℕ → ℕ → VmM ℤ
  | 0, _, _, _ => Seq.stuck
  | fuel + 1, dst, srcva, max =>
    if max = 0 then return -1
    else do
      let va0 := pgrounddown srcva
      let pa0 ← walkaddr pagetable va0
      if pa0 = 0 then return -1
      else do
        let n := min (pgsize - (srcva - va0)) max
        let r ← copyinstrPage n (pa0 + (srcva - va0)) dst max
        if r.1 then return 0
        else copyinstrToFrom pagetable fuel r.2.1 ((va0 + pgsize) % 2 ^ 64) r.2.2

/-- `copyinstr`, with its buffer in the memory of the kernel. -/
def copyinstrTo (pagetable dst srcva max : ℕ) : VmM ℤ :=
  copyinstrToFrom pagetable (max + 1) dst srcva max

/-- The loop of `strlen`; `fuel` bounds its length. -/
def strlenFrom (p : ℕ) : ℕ → ℕ → VmM ℤ
  | 0, _ => Seq.stuck
  | fuel + 1, n => do
    let c ← loadByte (p + n)
    if c = 0 then return n else strlenFrom p fuel (n + 1)

/-- `fetchstr`. -/
def fetchstr (pagetable addr buf max : ℕ) : VmM ℤ := do
  let r ← copyinstrTo pagetable buf addr max
  if r < 0 then return -1 else strlenFrom buf max 0

/-- `argstr`, for a system call with the given argument registers. -/
def argstr (pagetable : ℕ) (arg : Fin 6 → ℕ) (n : Fin 6) (buf max : ℕ) : VmM ℤ :=
  fetchstr pagetable (arg n) buf max

/-! ## User memory, byte by byte -/

/-- The byte at a user address, if a page is mapped there for user code. -/
def userByte (mem : ℕ → UInt8) (root va : ℕ) : Option UInt8 :=
  if va ≥ maxva then none
  else
    match translate mem root va with
    | none => none
    | some e => if hasFlag e pteU then some (mem (pte2pa e + va % pgsize)) else none

/-- The bytes before the first NUL, as far as there are bytes and `max` at most; and whether the
NUL was found. -/
def scanString (byte : ℕ → Option UInt8) : ℕ → ℕ → List UInt8 × Bool
  | 0, _ => ([], false)
  | max + 1, va =>
    match byte va with
    | none => ([], false)
    | some c =>
      if c = 0 then ([], true)
      else (c :: (scanString byte max (va + 1)).1, (scanString byte max (va + 1)).2)

/-- What is stored for a string. -/
def stored (r : List UInt8 × Bool) : List UInt8 := if r.2 then r.1 ++ [0] else r.1

theorem stored_take (l : List UInt8) : stored (l, false) = l := rfl

theorem stored_append (l : List UInt8) (r : List UInt8 × Bool) :
    stored (l ++ r.1, r.2) = l ++ stored r := by
  unfold stored
  cases r.2 with
  | false => rfl
  | true => exact List.append_assoc _ _ _

theorem stored_string (l : List UInt8) : stored (l, true) = l ++ [0] := rfl

/-- Store a list of bytes. -/
def putBytes (mem : ℕ → UInt8) (dst : ℕ) (l : List UInt8) : ℕ → UInt8 :=
  Bytes.blit mem dst l.length fun k => l.getD k 0

section Scan

variable {byte : ℕ → Option UInt8} {max n va k : ℕ}

/-- The byte cannot be read. -/
theorem scanString_none (h : byte va = none) : scanString byte (max + 1) va = ([], false) := by
  rw [scanString, h]

/-- The string ends. -/
theorem scanString_nul (h : byte va = some 0) : scanString byte (max + 1) va = ([], true) := by
  rw [scanString, h]
  rfl

/-- The string goes on. -/
theorem scanString_byte {c : UInt8} (h : byte va = some c) (hc : c ≠ 0) :
    scanString byte (max + 1) va =
      (c :: (scanString byte max (va + 1)).1, (scanString byte max (va + 1)).2) := by
  rw [scanString, h]
  exact if_neg hc

/-- A string is found at an address: `k` bytes and a NUL. -/
def StringAt (byte : ℕ → Option UInt8) (va k : ℕ) : Prop :=
  byte (va + k) = some 0 ∧ ∀ i < k, ∃ c, byte (va + i) = some c ∧ c ≠ 0

/-- The scan finds exactly the string that is there. -/
theorem scanString_found (hk : k < max) (h : StringAt byte va k) :
    (scanString byte max va).2 = true ∧ (scanString byte max va).1.length = k ∧
      ∀ i < k, byte (va + i) = some ((scanString byte max va).1.getD i 0) := by
  induction max generalizing va k with
  | zero => omega
  | succ max ih =>
    cases k with
    | zero =>
      have hnul : byte va = some 0 := h.1
      rw [scanString_nul hnul]
      exact ⟨rfl, rfl, fun i hi => absurd hi (Nat.not_lt_zero i)⟩
    | succ k =>
      obtain ⟨c, hbyte, hc⟩ := h.2 0 (Nat.succ_pos k)
      rw [Nat.add_zero] at hbyte
      have hrest : StringAt byte (va + 1) k := by
        constructor
        · rw [Nat.succ_add_eq_add_succ]
          exact h.1
        · intro i hi
          rw [Nat.succ_add_eq_add_succ]
          exact h.2 (i + 1) (Nat.succ_lt_succ hi)
      obtain ⟨hfound, hlen, hbytes⟩ := ih (Nat.lt_of_succ_lt_succ hk) hrest
      rw [scanString_byte hbyte hc]
      refine ⟨hfound, congrArg Nat.succ hlen, ?_⟩
      intro i hi
      cases i with
      | zero => exact hbyte
      | succ i =>
        rw [← Nat.succ_add_eq_add_succ]
        exact hbytes i (Nat.lt_of_succ_lt_succ hi)

/-- What the scan finds is a string. -/
theorem scanString_string (h : (scanString byte max va).2 = true) :
    ∃ k < max, StringAt byte va k := by
  induction max generalizing va with
  | zero => cases h
  | succ max ih =>
    cases hbyte : byte va with
    | none =>
      rw [scanString_none hbyte] at h
      cases h
    | some c =>
      by_cases hc : c = 0
      · exact ⟨0, Nat.succ_pos max, hc ▸ hbyte, fun i hi => absurd hi (Nat.not_lt_zero i)⟩
      · rw [scanString_byte hbyte hc] at h
        obtain ⟨k, hk, hnul, hbytes⟩ := ih h
        refine ⟨k + 1, Nat.succ_lt_succ hk, ?_, ?_⟩
        · rw [← Nat.succ_add_eq_add_succ]
          exact hnul
        · intro i hi
          cases i with
          | zero => exact ⟨c, hbyte, hc⟩
          | succ i =>
            rw [← Nat.succ_add_eq_add_succ]
            exact hbytes i (Nat.lt_of_succ_lt_succ hi)

theorem length_scanString : (scanString byte max va).1.length ≤ max := by
  induction max generalizing va with
  | zero => exact le_rfl
  | succ max ih =>
    rw [scanString]
    split
    · exact Nat.zero_le _
    · split
      · exact Nat.zero_le _
      · exact Nat.succ_le_succ ih

theorem length_stored_scan : (stored (scanString byte max va)).length ≤ max := by
  unfold stored
  split
  · rename_i hfound
    obtain ⟨k, hk, hstring⟩ := scanString_string hfound
    rw [List.length_append, (scanString_found hk hstring).2.1]
    exact hk
  · exact length_scanString

/-- A scan goes on behind a range that has bytes and no NUL. -/
theorem scanString_add (hn : n ≤ max) (hmapped : ∀ i < n, ∃ c, byte (va + i) = some c)
    (hnul : (scanString byte n va).2 = false) :
    (scanString byte n va).1.length = n ∧
      scanString byte max va =
        ((scanString byte n va).1 ++ (scanString byte (max - n) (va + n)).1,
          (scanString byte (max - n) (va + n)).2) := by
  induction n generalizing max va with
  | zero => exact ⟨rfl, by rw [Nat.sub_zero, Nat.add_zero]; rfl⟩
  | succ n ih =>
    obtain ⟨max, rfl⟩ : ∃ m, max = m + 1 := ⟨max - 1, by omega⟩
    obtain ⟨c, hbyte⟩ := hmapped 0 (Nat.succ_pos n)
    rw [Nat.add_zero] at hbyte
    by_cases hc : c = 0
    · rw [hc] at hbyte
      rw [scanString_nul hbyte] at hnul
      cases hnul
    · rw [scanString_byte hbyte hc] at hnul ⊢
      rw [scanString_byte hbyte hc]
      have hmapped' : ∀ i < n, ∃ c, byte (va + 1 + i) = some c := by
        intro i hi
        rw [Nat.succ_add_eq_add_succ]
        exact hmapped (i + 1) (Nat.succ_lt_succ hi)
      obtain ⟨hlen, hrest⟩ := ih (Nat.le_of_succ_le_succ hn) hmapped' hnul
      refine ⟨congrArg Nat.succ hlen, ?_⟩
      rw [hrest, Nat.add_sub_add_right, Nat.succ_add_eq_add_succ]
      rfl

/-- A scan stops at a NUL, however many bytes it may read. -/
theorem scanString_of_found (hn : n ≤ max) (hnul : (scanString byte n va).2 = true) :
    scanString byte max va = scanString byte n va := by
  induction n generalizing max va with
  | zero => cases hnul
  | succ n ih =>
    obtain ⟨max, rfl⟩ : ∃ m, max = m + 1 := ⟨max - 1, by omega⟩
    cases hbyte : byte va with
    | none => rw [scanString_none hbyte, scanString_none hbyte]
    | some c =>
      by_cases hc : c = 0
      · rw [hc] at hbyte
        rw [scanString_nul hbyte, scanString_nul hbyte]
      · rw [scanString_byte hbyte hc] at hnul
        rw [scanString_byte hbyte hc, scanString_byte hbyte hc,
          ih (Nat.le_of_succ_le_succ hn) hnul]

end Scan

section PutBytes

variable {mem : ℕ → UInt8} {dst x : ℕ}

/-- Bytes that stay. -/
theorem putBytes_outside {l : List UInt8} (hx : x < dst ∨ dst + l.length ≤ x) :
    putBytes mem dst l x = mem x := Bytes.blit_outside _ _ hx

/-- Bytes that are stored. -/
theorem putBytes_inside {l : List UInt8} {i : ℕ} (hi : i < l.length) :
    putBytes mem dst l (dst + i) = l.getD i 0 := by
  rw [putBytes, Bytes.blit_inside _ _ (by omega) (by omega), Nat.add_sub_cancel_left]

theorem putBytes_nil : putBytes mem dst [] = mem :=
    funext fun _ => putBytes_outside (by simp; omega)

theorem putBytes_append (l m : List UInt8) :
    putBytes (putBytes mem dst l) (dst + l.length) m = putBytes mem dst (l ++ m) := by
  funext x
  by_cases hlow : x < dst
  · rw [putBytes_outside (by omega), putBytes_outside (by omega), putBytes_outside (by omega)]
  · obtain ⟨i, rfl⟩ := Nat.exists_eq_add_of_le (Nat.le_of_not_lt hlow)
    by_cases hl : i < l.length
    · rw [putBytes_outside (by omega), putBytes_inside hl,
        putBytes_inside (by rw [List.length_append]; omega), List.getD_append _ _ _ _ hl]
    · obtain ⟨j, rfl⟩ := Nat.exists_eq_add_of_le (Nat.le_of_not_lt hl)
      by_cases hm : j < m.length
      · rw [← Nat.add_assoc, putBytes_inside hm, Nat.add_assoc,
          putBytes_inside (by rw [List.length_append]; omega),
          List.getD_append_right _ _ _ _ (by omega), Nat.add_sub_cancel_left]
      · rw [putBytes_outside (by omega), putBytes_outside (by omega),
          putBytes_outside (by rw [List.length_append]; omega)]

theorem putBytes_singleton (c : UInt8) : putBytes mem dst [c] = update mem dst c := by
  funext x
  by_cases hx : x = dst
  · rw [hx, update_self]
    exact putBytes_inside (i := 0) (by simp)
  · rw [update_of_ne hx, putBytes_outside (by simp; omega)]

end PutBytes

/-! ## The loops -/

/-- A page table whose user pages lie below the trapframe, and none of them at address 0. -/
structure Readable (mem : ℕ → UInt8) (root : ℕ) : Prop where
  table : Table mem root
  page : ∀ va < maxva, ∀ e, translate mem root va = some e → hasFlag e pteU = true →
    va < trapframeVa ∧ pte2pa e ≠ 0

section Loops

variable {mem mem' : ℕ → UInt8} {root va n max dst p fuel : ℕ} {s : Vm} {byte : ℕ → Option UInt8}

/-- The memory changes outside the pages of an address space. -/
def SameFootprint (mem mem' : ℕ → UInt8) (root : ℕ) : Prop :=
  ∀ a ∈ footprint mem root, ∀ x, InPage a x → mem' x = mem x

theorem SameFootprint.translate_eq (h : SameFootprint mem mem' root) (va : ℕ) :
    translate mem' root va = translate mem root va :=
  translate_congr (fun a ha => h a (.inl ha)) va

theorem SameFootprint.footprint_eq (h : SameFootprint mem mem' root) :
    footprint mem' root = footprint mem root := by
  unfold footprint
  rw [tables_congr fun a ha => h a (Or.inl ha), funext h.translate_eq]

theorem Readable.congr (hr : Readable mem root) (h : SameFootprint mem mem' root) :
    Readable mem' root := by
  constructor
  · exact hr.table.congr fun a ha => h a (.inl ha)
  · intro va hva e he
    rw [h.translate_eq] at he
    exact hr.page va hva e he

/-- User memory depends on the pages of the address space only. -/
theorem Readable.userByte_eq (hr : Readable mem root) (h : SameFootprint mem mem' root) :
    userByte mem' root = userByte mem root := by
  funext va
  unfold userByte
  rw [h.translate_eq]
  by_cases hva : va ≥ maxva
  · rw [if_pos hva, if_pos hva]
  rw [if_neg hva, if_neg hva]
  cases he : translate mem root va with
  | none => rfl
  | some e =>
    dsimp only
    by_cases hu : hasFlag e pteU = true
    · have hlt := (hr.page va (Nat.lt_of_not_ge hva) e he hu).1
      have hmod : va % pgsize < pgsize := Nat.mod_lt va (by decide)
      rw [if_pos hu, if_pos hu, h _ (Or.inr ⟨va, hlt, e, he, rfl⟩) _ ⟨by omega, by omega⟩]
    · rw [if_neg hu, if_neg hu]

/-- What `walkaddr` finds for a page is what user memory has there. -/
theorem Readable.page_cases (hr : Readable mem root) (va : ℕ) {pa : ℕ}
    (hpa : pa = if pgrounddown va ≥ maxva then 0
      else userPa (translate mem root (pgrounddown va))) :
    (pa = 0 ∧ userByte mem root va = none) ∨
      (pa ≠ 0 ∧ va < trapframeVa ∧ pa ∈ footprint mem root ∧
        ∀ i, va % pgsize + i < pgsize →
          userByte mem root (va + i) = some (mem (pa + va % pgsize + i))) := by
  have hround : pgrounddown va ≥ maxva ↔ va ≥ maxva := by
    unfold pgrounddown maxva pgsize
    omega
  rw [translate_congr_va (pgrounddown_div va)] at hpa
  by_cases hva : va ≥ maxva
  · rw [if_pos (hround.2 hva)] at hpa
    exact .inl ⟨hpa, by rw [userByte, if_pos hva]⟩
  rw [if_neg (hround.not.2 hva)] at hpa
  cases he : translate mem root va with
  | none =>
    rw [he, userPa] at hpa
    exact .inl ⟨hpa, by rw [userByte, if_neg hva, he]⟩
  | some e =>
    rw [he, userPa] at hpa
    by_cases hu : hasFlag e pteU = true
    · rw [if_pos hu] at hpa
      obtain ⟨hlt, hne⟩ := hr.page va (Nat.lt_of_not_ge hva) e he hu
      refine .inr ⟨hpa ▸ hne, hlt, .inr ⟨va, hlt, e, he, hpa.symm⟩, ?_⟩
      intro i hi
      have hdiv : (va + i) / pgsize = va / pgsize := by
        unfold pgsize at hi ⊢
        omega
      have hmod : (va + i) % pgsize = va % pgsize + i := by
        unfold pgsize at hi ⊢
        omega
      have hlt' := lt_trapframeVa_of_div hdiv hlt
      have := trapframeVa_lt_maxva
      rw [userByte, if_neg (by omega), translate_congr_va hdiv, he]
      simp only [hu, if_true, hmod, hpa, Nat.add_assoc]
    · rw [if_neg hu] at hpa
      exact .inl ⟨hpa, by rw [userByte, if_neg hva, he]; exact if_neg hu⟩

/-- What the part of a scan that lies on one page says about the whole scan; `next` is where the
loops over pages go on. -/
structure Chunk (byte : ℕ → Option UInt8) (mem : ℕ → UInt8) (va p n max next : ℕ) : Prop where
  pos : 0 < n
  le : n ≤ max
  bytes : ∀ i < n, byte (va + i) = some (mem (p + i))
  found : (scanString byte n va).2 = true → scanString byte max va = scanString byte n va
  length : (scanString byte n va).2 = false → (scanString byte n va).1.length = n
  rest : (scanString byte n va).2 = false →
    scanString byte max va = ((scanString byte n va).1 ++ (scanString byte (max - n) next).1,
      (scanString byte (max - n) next).2)

/-- The loops over pages read user memory chunk by chunk. -/
theorem Readable.chunk_cases (hr : Readable mem root) (va : ℕ) {pa : ℕ} (hmax : max ≠ 0)
    (hpa : (if pgrounddown va ≥ maxva then 0
      else userPa (translate mem root (pgrounddown va))) = pa) :
    (pa = 0 ∧ scanString (userByte mem root) max va = ([], false)) ∨
      (pa ≠ 0 ∧ pa ∈ footprint mem root ∧
        va % pgsize + min (pgsize - va % pgsize) max ≤ pgsize ∧
        Chunk (userByte mem root) mem va (pa + va % pgsize) (min (pgsize - va % pgsize) max) max
          ((pgrounddown va + pgsize) % 2 ^ 64)) := by
  rcases hr.page_cases va hpa.symm with ⟨hzero, hnone⟩ | ⟨hne, hlt, hpage, hbytes⟩
  · obtain ⟨max, rfl⟩ := Nat.exists_eq_succ_of_ne_zero hmax
    exact .inl ⟨hzero, scanString_none hnone⟩
  · obtain ⟨hchunk, hoff⟩ := chunk_le va max
    have hpos := chunk_pos va hmax
    have hnext := @chunk_next va max hlt
    rw [hoff] at hchunk hpos hnext
    have hle : min (pgsize - va % pgsize) max ≤ max := Nat.min_le_right _ _
    refine .inr ⟨hne, hpage, hchunk, ?_⟩
    generalize min (pgsize - va % pgsize) max = n at hchunk hpos hnext hle ⊢
    have hbyte : ∀ i < n, userByte mem root (va + i) = some (mem (pa + va % pgsize + i)) :=
      fun i hi => hbytes i (by omega)
    -- If the chunk ends at `max`, nothing is left to read, wherever the loop would go on.
    have hrest : scanString (userByte mem root) (max - n) ((pgrounddown va + pgsize) % 2 ^ 64) =
        scanString (userByte mem root) (max - n) (va + n) := by
      by_cases hmore : n < max
      · rw [hnext hmore]
      · rw [Nat.sub_eq_zero_of_le (Nat.le_of_not_lt hmore), scanString, scanString]
    refine ⟨hpos, hle, hbyte, scanString_of_found hle, fun hfound => ?_, fun hfound => ?_⟩
    · exact (scanString_add hle (fun i hi => ⟨_, hbyte i hi⟩) hfound).1
    · rw [hrest]
      exact (scanString_add hle (fun i hi => ⟨_, hbyte i hi⟩) hfound).2

/-- The inner loop copies as far as the scan goes. -/
theorem copyinstrPage_eq (hbyte : ∀ i < n, byte (va + i) = some (s.mem (p + i)))
    (hsep : p + n ≤ dst ∨ dst + n ≤ p) :
    copyinstrPage n p dst max s =
      .ok ((scanString byte n va).2, dst + (scanString byte n va).1.length,
          max - (scanString byte n va).1.length)
        (s.setMem (putBytes s.mem dst (stored (scanString byte n va)))) := by
  induction n generalizing s p dst max va with
  | zero =>
    rw [copyinstrPage, scanString, stored_take, putBytes_nil]
    rfl
  | succ n ih =>
    have hfirst : byte va = some (s.mem p) := hbyte 0 (Nat.succ_pos n)
    rw [copyinstrPage, bind_apply, loadByte, gets_apply, ok_bind]
    by_cases hc : s.mem p = 0
    · rw [if_pos hc, scanString_nul (hfirst.trans (congrArg some hc)), stored_string,
        List.nil_append, putBytes_singleton]
      rfl
    · rw [if_neg hc, bind_apply, storeByte, Seq.modify_apply, ok_bind,
        scanString_byte hfirst hc]
      have hbyte' : ∀ i < n, byte (va + 1 + i) =
          some ((s.setMem (update s.mem dst (s.mem p))).mem (p + 1 + i)) := by
        intro i hi
        have hsame : update s.mem dst (s.mem p) (p + 1 + i) = s.mem (p + (i + 1)) := by
          rw [update_of_ne (by omega), Nat.succ_add_eq_add_succ]
        rw [Nat.succ_add_eq_add_succ, hbyte (i + 1) (Nat.succ_lt_succ hi)]
        exact congrArg some hsame.symm
      have hstored := stored_append [s.mem p] (scanString byte n (va + 1))
      rw [List.singleton_append] at hstored
      rw [ih hbyte' (by omega), hstored, ← putBytes_append, putBytes_singleton]
      simp only [List.length_cons]
      rw [Nat.add_assoc, Nat.add_comm 1, Nat.sub_sub, Nat.add_comm 1]
      rfl

/-- Storing into a buffer outside the address space. -/
theorem sameFootprint_putBytes {l : List UInt8}
    (hdst : ∀ a ∈ footprint mem root, ∀ x, InPage a x → x < dst ∨ dst + max ≤ x)
    (hl : l.length ≤ max) : SameFootprint mem (putBytes mem dst l) root := by
  intro a ha x hx
  apply putBytes_outside
  have := hdst a ha x hx
  omega

/-- `copyinstr` stores the string as far as it can be read. -/
theorem copyinstrToFrom_eq (hr : Readable s.mem root)
    (hdst : ∀ a ∈ footprint s.mem root, ∀ x, InPage a x → x < dst ∨ dst + max ≤ x)
    (hfuel : max < fuel) :
    copyinstrToFrom root fuel dst va max s =
      .ok (if (scanString (userByte s.mem root) max va).2 then 0 else -1)
        (s.setMem (putBytes s.mem dst (stored (scanString (userByte s.mem root) max va)))) := by
  induction fuel generalizing s dst va max with
  | zero => omega
  | succ fuel ih =>
    rw [copyinstrToFrom]
    by_cases hmax : max = 0
    · rw [if_pos hmax, hmax, scanString, stored_take, putBytes_nil]
      rfl
    rw [if_neg hmax]
    rw [bind_apply, walkaddr_eq hr.table, ok_bind, (chunk_le va max).2]
    generalize hpa : (if pgrounddown va ≥ maxva then 0
      else userPa (translate s.mem root (pgrounddown va))) = pa
    rcases hr.chunk_cases va hmax hpa with ⟨hzero, hnone⟩ | ⟨hne, hpage, hin, hchunk⟩
    · rw [if_pos hzero, hnone, stored_take, putBytes_nil]
      rfl
    rw [if_neg hne, bind_apply]
    generalize min (pgsize - va % pgsize) max = n at hin hchunk ⊢
    generalize (pgrounddown va + pgsize) % 2 ^ 64 = next at hchunk ⊢
    have hpos := hchunk.pos
    have hle := hchunk.le
    -- The chunk is on a user page and so apart from the buffer.
    have hsep : pa + va % pgsize + n ≤ dst ∨ dst + n ≤ pa + va % pgsize := by
      by_contra hcross
      rcases Nat.le_total dst (pa + va % pgsize) with hge | hge
      · have := hdst pa hpage (pa + va % pgsize) ⟨by omega, by omega⟩
        omega
      · have := hdst pa hpage dst ⟨by omega, by omega⟩
        omega
    rw [copyinstrPage_eq hchunk.bytes hsep, ok_bind]
    cases hfound : (scanString (userByte s.mem root) n va).2 with
    | true =>
      rw [if_pos rfl, hchunk.found hfound, hfound, if_pos rfl]
      rfl
    | false =>
      have hlen := hchunk.length hfound
      have hstored : stored (scanString (userByte s.mem root) n va) =
          (scanString (userByte s.mem root) n va).1 := by
        rw [stored, hfound, if_neg Bool.false_ne_true]
      rw [if_neg Bool.false_ne_true, hchunk.rest hfound, stored_append, ← putBytes_append,
        hstored, hlen]
      have hsame := sameFootprint_putBytes hdst (hlen.trans_le hle)
      generalize (scanString (userByte s.mem root) n va).1 = l at hlen hsame ⊢
      have hdst' : ∀ a ∈ footprint (putBytes s.mem dst l) root, ∀ x, InPage a x →
          x < dst + n ∨ dst + n + (max - n) ≤ x := by
        rw [hsame.footprint_eq]
        intro a ha x hx
        have := hdst a ha x hx
        omega
      have hcall := @ih next _ _ (s.setMem (putBytes s.mem dst l)) (hr.congr hsame) hdst' (by omega)
      have hbyte : userByte (s.setMem (putBytes s.mem dst l)).mem root = userByte s.mem root :=
        hr.userByte_eq hsame
      rw [hbyte] at hcall
      exact hcall

/-- The characters before the first NUL of a range that can be read. -/
theorem untilNul_eq (hbyte : ∀ i < n, byte (va + i) = some (mem (p + i))) :
    untilNul ((List.range n).map fun k => mem (p + k)) = scanString byte n va := by
  induction n generalizing p va with
  | zero => rfl
  | succ n ih =>
    have hfirst : byte va = some (mem p) := hbyte 0 (Nat.succ_pos n)
    have hrest : ∀ i < n, byte (va + 1 + i) = some (mem (p + 1 + i)) := by
      intro i hi
      rw [Nat.succ_add_eq_add_succ, Nat.succ_add_eq_add_succ]
      exact hbyte (i + 1) (Nat.succ_lt_succ hi)
    have htail := ih hrest
    have hshift : (List.range (n + 1)).map (fun k => mem (p + k)) =
        mem p :: (List.range n).map fun k => mem (p + 1 + k) := by
      rw [List.range_succ_eq_map, List.map_cons, List.map_map, Nat.add_zero]
      congr 2
      funext k
      exact congrArg mem (Nat.succ_add_eq_add_succ p k).symm
    rw [hshift, untilNul, htail]
    by_cases hc : mem p = 0
    · rw [if_pos hc, scanString_nul (hfirst.trans (congrArg some hc))]
    · rw [if_neg hc, scanString_byte hfirst hc]

/-- `copyinstr` without its buffer returns the string that the buffer gets. -/
theorem copyinstrFrom_eq (hr : Readable s.mem root) (hfuel : max < fuel) :
    copyinstrFrom root fuel va max s =
      .ok (if (scanString (userByte s.mem root) max va).2
        then some (scanString (userByte s.mem root) max va).1 else none) s := by
  induction fuel generalizing va max with
  | zero => omega
  | succ fuel ih =>
    rw [copyinstrFrom]
    by_cases hmax : max = 0
    · rw [if_pos hmax, hmax, scanString]
      rfl
    rw [if_neg hmax]
    rw [bind_apply, walkaddr_eq hr.table, ok_bind, (chunk_le va max).2]
    generalize hpa : (if pgrounddown va ≥ maxva then 0
      else userPa (translate s.mem root (pgrounddown va))) = pa
    rcases hr.chunk_cases va hmax hpa with ⟨hzero, hnone⟩ | ⟨hne, hpage, -, hchunk⟩
    · rw [if_pos hzero, hnone]
      rfl
    rw [if_neg hne, bind_apply]
    generalize min (pgsize - va % pgsize) max = n at hchunk ⊢
    generalize (pgrounddown va + pgsize) % 2 ^ 64 = next at hchunk ⊢
    have hpos := hchunk.pos
    have hle := hchunk.le
    rw [memmoveTo, gets_apply, ok_bind, untilNul_eq hchunk.bytes]
    cases hfound : (scanString (userByte s.mem root) n va).2 with
    | true =>
      rw [if_pos rfl, hchunk.found hfound, hfound, if_pos rfl]
      rfl
    | false =>
      rw [if_neg Bool.false_ne_true, bind_apply, ih (by omega), ok_bind,
        hchunk.rest hfound]
      cases (scanString (userByte s.mem root) (max - n) next).2 <;> rfl

/-- `strlen` of a string in memory. -/
theorem strlenFrom_eq {l : List UInt8} (hmem : ∀ i < l.length, s.mem (p + i) ≠ 0)
    (hnul : s.mem (p + l.length) = 0) (hn : n ≤ l.length) (hfuel : l.length < n + fuel) :
    strlenFrom p fuel n s = .ok l.length s := by
  induction fuel generalizing n with
  | zero => omega
  | succ fuel ih =>
    rw [strlenFrom, bind_apply, loadByte, gets_apply, ok_bind]
    by_cases hend : n = l.length
    · rw [if_pos (by rw [hend]; exact hnul), hend]
      rfl
    · rw [if_neg (hmem n (by omega))]
      exact ih (by omega) (by omega)

end Loops

/-! ## Processes -/

section Process

variable {img : KernelImage} {s : Vm} {root tf sz dst srcva max : ℕ}

/-- Processes can be read. -/
theorem ProcSpace.readable (h : ProcSpace img s root tf sz) : Readable s.mem root := by
  refine ⟨h.space.table, ?_⟩
  intro va hva e he hu
  have hlt := h.lt_of_user (hva.trans (by decide)) he hu
  exact ⟨hlt, (h.space.user.page va hlt e he).pos⟩

/-- `fetchstr` returns the length of the string in the buffer. -/
theorem fetchstr_eq (hr : Readable s.mem root)
    (hdst : ∀ a ∈ footprint s.mem root, ∀ x, InPage a x → x < dst ∨ dst + max ≤ x) :
    fetchstr root srcva dst max s =
      .ok (if (scanString (userByte s.mem root) max srcva).2
          then ((scanString (userByte s.mem root) max srcva).1.length : ℤ) else -1)
        (s.setMem (putBytes s.mem dst
          (stored (scanString (userByte s.mem root) max srcva)))) := by
  rw [fetchstr, copyinstrTo, bind_apply, copyinstrToFrom_eq hr hdst (Nat.lt_succ_self max),
    ok_bind]
  cases hfound : (scanString (userByte s.mem root) max srcva).2 with
  | false => rfl
  | true =>
    obtain ⟨k, hk, hstring⟩ := scanString_string hfound
    obtain ⟨-, hlen, hbytes⟩ := scanString_found hk hstring
    have hstored : stored (scanString (userByte s.mem root) max srcva) =
        (scanString (userByte s.mem root) max srcva).1 ++ [0] := by
      rw [stored, hfound, if_pos rfl]
    rw [if_pos rfl, if_neg (by decide), if_pos rfl, hstored]
    generalize (scanString (userByte s.mem root) max srcva).1 = l at hlen hbytes
    apply strlenFrom_eq
    · intro i hi
      obtain ⟨c, hc, hne⟩ := hstring.2 i (by omega)
      rw [hbytes i (by omega)] at hc
      change putBytes s.mem dst (l ++ [0]) (dst + i) ≠ 0
      rw [putBytes_inside (by simp; omega), List.getD_append _ _ _ _ hi, Option.some.inj hc]
      exact hne
    · change putBytes s.mem dst (l ++ [0]) (dst + l.length) = 0
      rw [putBytes_inside (by simp), List.getD_append_right _ _ _ _ le_rfl, Nat.sub_self]
      rfl
    · exact Nat.zero_le _
    · omega

/-- `copyinstr` of a process copies exactly one string, of at most `max` bytes with its NUL, if
user memory has one at the address, and fails otherwise. It depends on user memory only.
`fetchstr` and `argstr` return the length of the string. -/
theorem copyinstr_correct (h : ProcSpace img s root tf sz) (dst srcva max : ℕ)
    (hdst : ∀ a ∈ footprint s.mem root, ∀ x, InPage a x → x < dst ∨ dst + max ≤ x) :
    ∃ r bytes,
      copyinstrTo root dst srcva max s = .ok r (s.setMem (putBytes s.mem dst bytes)) ∧
      bytes.length ≤ max ∧ (r = 0 ∨ r = -1) ∧
      (r = 0 ↔ ∃ k < max, StringAt (userByte s.mem root) srcva k) ∧
      (∀ k < max, StringAt (userByte s.mem root) srcva k → bytes.length = k + 1 ∧
        ∀ i ≤ k, userByte s.mem root (srcva + i) = some (bytes.getD i 0)) ∧
      (∀ s2, ProcSpace img s2 root tf sz → userByte s2.mem root = userByte s.mem root →
        (∀ a ∈ footprint s2.mem root, ∀ x, InPage a x → x < dst ∨ dst + max ≤ x) →
        copyinstrTo root dst srcva max s2 = .ok r (s2.setMem (putBytes s2.mem dst bytes))) ∧
      copyinstr root srcva max s = .ok (if r = 0 then some bytes.dropLast else none) s ∧
      ∀ arg n, arg n = srcva → argstr root arg n dst max s =
        .ok (if r = 0 then (bytes.length : ℤ) - 1 else -1)
          (s.setMem (putBytes s.mem dst bytes)) := by
  have hr := h.readable
  have hfetch := @fetchstr_eq s root dst srcva max hr hdst
  have hcall : ∀ s2, Readable s2.mem root → userByte s2.mem root = userByte s.mem root →
      (∀ a ∈ footprint s2.mem root, ∀ x, InPage a x → x < dst ∨ dst + max ≤ x) →
      copyinstrTo root dst srcva max s2 =
        .ok (if (scanString (userByte s.mem root) max srcva).2 then 0 else -1)
          (s2.setMem (putBytes s2.mem dst
            (stored (scanString (userByte s.mem root) max srcva)))) := by
    intro s2 hr2 hbyte hdst2
    rw [← hbyte]
    exact copyinstrToFrom_eq hr2 hdst2 (Nat.lt_succ_self max)
  refine ⟨_, _, hcall s hr rfl hdst, length_stored_scan, ?_, ?_, ?_,
    fun s2 h2 => hcall s2 h2.readable, ?_, ?_⟩
  · cases (scanString (userByte s.mem root) max srcva).2
    · exact .inr rfl
    · exact .inl rfl
  · constructor
    · intro hzero
      apply scanString_string
      by_contra hfound
      rw [if_neg hfound] at hzero
      cases hzero
    · rintro ⟨k, hk, hstring⟩
      rw [if_pos (scanString_found hk hstring).1]
  · intro k hk hstring
    obtain ⟨hfound, hlen, hbytes⟩ := scanString_found hk hstring
    rw [stored, if_pos hfound]
    constructor
    · rw [List.length_append, hlen, List.length_singleton]
    · intro i hi
      by_cases hlt : i < k
      · rw [hbytes i hlt, List.getD_append _ _ _ _ (by omega)]
      · obtain rfl : i = k := by omega
        rw [hstring.1, List.getD_append_right _ _ _ _ (by omega), hlen, Nat.sub_self]
        rfl
  · rw [copyinstr, copyinstrFrom_eq hr (Nat.lt_succ_self max)]
    cases hfound : (scanString (userByte s.mem root) max srcva).2 with
    | false => rfl
    | true =>
      rw [if_pos rfl, if_pos rfl, if_pos rfl, stored, hfound, if_pos rfl, List.dropLast_concat]
  · rintro arg n rfl
    rw [argstr, hfetch]
    cases hfound : (scanString (userByte s.mem root) max (arg n)).2 with
    | false => rfl
    | true =>
      rw [if_pos rfl, if_pos rfl, if_pos rfl, stored, hfound, if_pos rfl, List.length_append,
        List.length_singleton]
      congr 1
      omega

/-- Two characters are written to the memory of the first process and fetched as a string into
a buffer at address 0, where there is no page. -/
theorem copyinstr_correct_boot :
    ∃ s s', ProcSpace tinyImage s bootRoot bootTrapframe pgsize ∧
      argstr bootRoot (fun _ => 10) 0 0 128 s = .ok 2 s' := by
  obtain ⟨s, heq, hproc⟩ := bootVm_proc (le_refl pgsize)
  have hruns : Seq.Runs (fun _ => False)
      (copyout tinyImage ⟨pgsize, bootRoot⟩ bootRoot 10 (fun _ => 3) 2) s _ :=
    copyoutFrom_runs hproc (.inl rfl) le_rfl
  obtain ⟨r, s', hrun, hpost⟩ := hruns.returns
  have hproc' : ProcSpace tinyImage s' bootRoot bootTrapframe pgsize := by
    rcases hpost with ⟨-, hw⟩ | ⟨-, n, -, hw, -⟩
    · exact hw.proc
    · exact hw.proc
  have hpages : ∀ a ∈ footprint s'.mem bootRoot, ∀ x, InPage a x → x < 0 ∨ 0 + 128 ≤ x := by
    intro a ha x hx
    have hpage : IsPage tinyImage a := by
      rcases ha with ha | ⟨va, hva, e, he, rfl⟩
      · exact hproc'.space.tablePage a ha
      · exact hproc'.space.user.page va hva e he
    have hkend : 128 ≤ tinyImage.kend := by decide
    have := hpage.kend_le
    have := hx.1
    omega
  obtain ⟨r', bytes, -, -, -, -, -, -, -, harg⟩ := copyinstr_correct hproc' 0 10 128 hpages
  have hlen : resultOf 7 ((procPagetable tinyImage bootTrapframe >>= fun root =>
      copyout tinyImage ⟨pgsize, root⟩ root 10 (fun _ => 3) 2 >>= fun _ =>
      argstr root (fun _ => 10) 0 0 128) bootVm) = 2 := rfl
  have hfetch := harg (fun _ => 10) 0 rfl
  rw [bind_apply, heq, ok_bind, bind_apply, hrun, ok_bind, hfetch] at hlen
  exact ⟨s', _, hproc', by rw [hfetch]; exact congrArg (Outcome.ok · _) hlen⟩

end Process

end RiscvKernel
