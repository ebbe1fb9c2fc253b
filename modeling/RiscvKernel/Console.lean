import RiscvKernel.Vm.Table

/-!
# The console and its locks

`console.c` and `printf.c`, with the functions of `vm.c` and `kalloc.c` that a write to the
console calls, this time with the messages they print. All of it runs on one processor: the
state records whether this processor holds `pr.lock` and `cons_lock`. A second `acquire` of a
held lock stops the machine with the panic of `acquire`; every other panic prints its message
first, as `panic` does.

Without the messages the functions are those of `RiscvKernel.Vm.Model`, and a call that returns
leaves the locks as it found them. What remains is which calls return.
-/

namespace RiscvKernel.Console

open Threads
open Threads.Seq (bind_apply ok_bind bind_eq_ok)

/-- The state of the console, as one processor sees it. -/
structure State where
  /-- Physical memory. -/
  vm : Vm
  /-- This processor holds `pr.lock`. -/
  prLock : Bool
  /-- This processor holds `cons_lock`. -/
  consLock : Bool
  /-- `panicking`. No function sets it. -/
  panicking : Bool
  /-- `panicked`. -/
  panicked : Bool
  /-- The characters sent to the UART, latest first. -/
  uart : List UInt8

/-- A program over the console. -/
abbrev ConM := Seq State

/-- The characters of a string constant. -/
def cstr (s : String) : List UInt8 := s.toList.map fun c => UInt8.ofNat c.toNat

/-! ## Locks -/

/-- The two locks. -/
inductive Lock where
  | pr
  | cons

/-- The processor holds a lock. -/
def State.holding (s : State) : Lock → Bool
  | .pr => s.prLock
  | .cons => s.consLock

/-- Mark a lock as held or free. -/
def State.setLock (s : State) (lk : Lock) (b : Bool) : State :=
  match lk with
  | .pr => { s with prLock := b }
  | .cons => { s with consLock := b }

/-- `acquire`, on a lock that no other processor holds for ever. -/
def acquire (lk : Lock) : ConM Unit := fun s =>
  if s.holding lk then .panic "acquire" s else .ok () (s.setLock lk true)

/-- `release`. -/
def release (lk : Lock) : ConM Unit := fun s =>
  if s.holding lk then .ok () (s.setLock lk false) else .panic "release" s

/-! ## Printing -/

/-- `uartputc`, once the device is ready. -/
def uartputc (c : UInt8) : ConM Unit := Seq.modify fun s => { s with uart := c :: s.uart }

/-- `consoleputc`. -/
def consoleputc (c : UInt8) : ConM Unit := do
  acquire .cons
  uartputc c
  release .cons

/-- `consoleputs`, and every other loop that prints a string. -/
def consoleputs : List UInt8 → ConM Unit
  | [] => return ()
  | c :: rest => do
    consoleputc c
    consoleputs rest

/-- The digits of a number, most significant first; `fuel` bounds their number. -/
def digitsFrom (base : ℕ) : ℕ → ℕ → List UInt8 → List UInt8
  | 0, _, buf => buf
  | fuel + 1, x, buf =>
    let d := x % base
    let buf := UInt8.ofNat (if d < 10 then 48 + d else 87 + d) :: buf
    if x / base = 0 then buf else digitsFrom base fuel (x / base) buf

/-- The characters that `printint` prints. -/
def printint (val : ℤ) (base : ℕ) (sign : Bool) : List UInt8 :=
  if sign && val < 0 then cstr "-" ++ digitsFrom base 64 ((-val) % 2 ^ 64).toNat []
  else digitsFrom base 64 (val % 2 ^ 64).toNat []

/-- `va_arg(ap, int)`. -/
def argInt (w : ℕ) : ℤ :=
  if w % 2 ^ 32 < 2 ^ 31 then (w % 2 ^ 32 : ℕ) else (w % 2 ^ 32 : ℕ) - 2 ^ 32

/-- The characters printed for the conversion `%c`, given the next argument and the strings in
the kernel's memory, and whether the argument is used. -/
def convert (strings : ℕ → List UInt8) (c : UInt8) (w : ℕ) : List UInt8 × Bool :=
  if c = 100 then (printint (argInt w) 10 true, true)
  else if c = 120 then (printint (argInt w) 16 false, true)
  else if c = 112 then (cstr "0x" ++ printint w 16 false, true)
  else if c = 115 then (if w = 0 then cstr "(null)" else strings w, true)
  else if c = 99 then ([UInt8.ofNat w], true)
  else if c = 37 then (cstr "%", false)
  else (cstr "%" ++ [c], false)

/-- `vprintf`. -/
def vprintf (strings : ℕ → List UInt8) : List UInt8 → List ℕ → ConM Unit
  | [], _ => return ()
  | [c], _ => if c = 0 ∨ c = 37 then return () else consoleputc c
  | c :: d :: rest, args =>
    if c = 0 then return ()
    else if c ≠ 37 then do
      consoleputc c
      vprintf strings (d :: rest) args
    else if d = 0 then return ()
    else do
      let out := convert strings d (args.headD 0)
      consoleputs out.1
      vprintf strings rest (if out.2 then args.tail else args)

/-- The frame of `printf` and `printf_color`: `pr.lock` is taken unless the kernel is panicking. -/
def withPr (m : ConM Unit) : ConM Unit := do
  if (← Seq.gets State.panicking) = false then acquire .pr
  m
  if (← Seq.gets State.panicking) = false then release .pr

/-- `printf`. -/
def printf (strings : ℕ → List UInt8) (fmt : List UInt8) (args : List ℕ) : ConM Unit :=
  withPr (vprintf strings fmt args)

/-- A `printf` of a message without conversions. -/
def message (msg : String) : ConM Unit := printf (fun _ => []) (cstr msg) []

/-- `panic`, called from anywhere but `acquire`. -/
def panic (msg : String) {α : Type} : ConM α := do
  Seq.modify fun s => { s with panicked := true }
  message ("kernel panic: " ++ msg ++ "\n")
  Seq.panic msg

/-- Run a program on physical memory. Its panics print. -/
def onVm {α : Type} (m : VmM α) : ConM α := fun s =>
  match m s.vm with
  | .ok a vm => .ok a { s with vm := vm }
  | .panic msg vm => panic msg { s with vm := vm }
  | .stuck vm => .stuck { s with vm := vm }

/-! ## Memory, with messages -/

/-- `kalloc`. -/
def kalloc : ConM ℕ := do
  let r ← onVm RiscvKernel.kalloc
  if r = 0 then message "[kalloc] Out of memory!\n"
  return r

/-- One turn of the loop of `walk`. -/
def walkNext (alloc : Bool) (pagetable : ℕ) (i : Fin 512) : ConM (Option ℕ) := do
  let pte ← onVm (load (pteAddr pagetable i))
  if hasFlag pte pteV then return some (pte2pa pte)
  else if alloc then do
    let page ← kalloc
    if page = 0 then do
      message "[walk] kalloc for new page table failed!\n"
      return none
    else do
      onVm (memset page 0 pgsize)
      onVm (store (pteAddr pagetable i) (pa2pte page ||| pteV))
      return some page
  else do
    message "[walk] kalloc for new page table failed!\n"
    return none

/-- The loop of `walk`. -/
def walkFrom (alloc : Bool) (va : ℕ) : ℕ → ℕ → ConM ℕ
  | 0, pagetable => return pteAddr pagetable (px 0 va)
  | level + 1, pagetable => do
    match ← walkNext alloc pagetable (px (level + 1) va) with
    | none => return 0
    | some pagetable => walkFrom alloc va level pagetable

/-- `walk`. -/
def walk (pagetable va : ℕ) (alloc : Bool) : ConM ℕ :=
  if va ≥ maxva then panic "walk" else walkFrom alloc va 2 pagetable

/-- `walkaddr`. -/
def walkaddr (pagetable va : ℕ) : ConM ℕ :=
  if va ≥ maxva then return 0
  else do
    let pte ← walk pagetable va false
    if pte = 0 then return 0
    let e ← onVm (load pte)
    if hasFlag e pteV = false then return 0
    if hasFlag e pteU = false then return 0
    return pte2pa e

/-- One turn of the loop of `mappages`. -/
def mapPage (pagetable a pa perm : ℕ) : ConM ℤ := do
  let pte ← walk pagetable a true
  if pte = 0 then do
    message "[mappages] walk failed!\n"
    return -1
  else do
    let e ← onVm (load pte)
    if hasFlag e pteV then panic "mappages: remap"
    else do
      onVm (store pte (pa2pte pa ||| perm ||| pteV))
      return 0

/-- The loop of `mappages`, with `n + 1` pages to go. -/
def mappagesFrom (pagetable perm : ℕ) : ℕ → ℕ → ℕ → ConM ℤ
  | 0, a, pa => mapPage pagetable a pa perm
  | n + 1, a, pa => do
    let r ← mapPage pagetable a pa perm
    if r ≠ 0 then return r
    else mappagesFrom pagetable perm n ((a + pgsize) % 2 ^ 64) ((pa + pgsize) % 2 ^ 64)

/-- `mappages`. -/
def mappages (pagetable va size pa perm : ℕ) : ConM ℤ :=
  if va % pgsize ≠ 0 then panic "mappages: va not aligned"
  else if size % pgsize ≠ 0 then panic "mappages: size not aligned"
  else if size = 0 then panic "mappages: size"
  else mappagesFrom pagetable perm (size / pgsize - 1) va pa

/-- `ismapped`. -/
def ismapped (pagetable va : ℕ) : ConM Bool := do
  let pte ← walk pagetable va false
  if pte = 0 then return false
  let e ← onVm (load pte)
  return hasFlag e pteV

/-- `vmfault`, called by process `p`. -/
def vmfault (img : KernelImage) (p : UserSpace) (pagetable va : ℕ) : ConM ℕ :=
  if va ≥ p.sz then return 0
  else do
    let va := pgrounddown va
    if ← ismapped pagetable va then return 0
    let mem ← kalloc
    if mem = 0 then return 0
    onVm (memset mem 0 pgsize)
    let r ← mappages p.pagetable va pgsize mem (pteW ||| pteU ||| pteR)
    if r ≠ 0 then do
      onVm (kfree img mem)
      return 0
    else return mem

/-- The physical page of a user page, which is filled in if it was allocated lazily. -/
def userPage (img : KernelImage) (p : UserSpace) (pagetable va0 : ℕ) : ConM ℕ := do
  let pa0 ← walkaddr pagetable va0
  if pa0 = 0 then vmfault img p pagetable va0 else return pa0

/-- The loop of `copyin`. -/
def copyinFrom (img : KernelImage) (p : UserSpace) (pagetable : ℕ) :
    ℕ → ℕ → ℕ → ConM (ℤ × List UInt8)
  | 0, _, _ => return (0, [])
  | fuel + 1, srcva, len =>
    if len = 0 then return (0, [])
    else do
      let va0 := pgrounddown srcva
      let pa0 ← userPage img p pagetable va0
      if pa0 = 0 then return (-1, [])
      else do
        let n := min (pgsize - (srcva - va0)) len
        let bytes ← onVm (memmoveTo (pa0 + (srcva - va0)) n)
        let r ← copyinFrom img p pagetable fuel ((va0 + pgsize) % 2 ^ 64) (len - n)
        return (r.1, bytes ++ r.2)

/-- `copyin`. -/
def copyin (img : KernelImage) (p : UserSpace) (pagetable srcva len : ℕ) :
    ConM (ℤ × List UInt8) :=
  copyinFrom img p pagetable len srcva len

/-- A run that returns leaves the locks alone and does to the memory what `m` does. -/
def Refines {α : Type} (m' : ConM α) (m : VmM α) : Prop :=
  ∀ s a s', m' s = .ok a s' →
    m s.vm = .ok a s'.vm ∧ (s'.prLock = s.prLock ∧ s'.consLock = s.consLock) ∧
      s'.panicking = s.panicking

section Refinement

variable {α β : Type}

theorem Refines.pure (a : α) : Refines (pure a) (pure a) := by
  intro s b s' h
  cases h
  exact ⟨rfl, ⟨rfl, rfl⟩, rfl⟩

theorem Refines.bind {m' : ConM α} {m : VmM α} {g' : α → ConM β} {g : α → VmM β}
    (hm : Refines m' m) (hg : ∀ a, Refines (g' a) (g a)) : Refines (m' >>= g') (m >>= g) := by
  intro s b s' h
  obtain ⟨a, s1, h1, h2⟩ := bind_eq_ok h
  obtain ⟨hvm, hlock, hpan⟩ := hm s a s1 h1
  obtain ⟨hvm', hlock', hpan'⟩ := hg a s1 b s' h2
  refine ⟨?_, ⟨hlock'.1.trans hlock.1, hlock'.2.trans hlock.2⟩, hpan'.trans hpan⟩
  change (m s.vm).bind g = _
  rw [hvm]
  exact hvm'

/-- `consoleputc` sends the character if it gets the lock. -/
theorem consoleputc_eq (c : UInt8) (s : State) : consoleputc c s =
    if s.consLock then .panic "acquire" s else .ok () { s with uart := c :: s.uart } := by
  obtain ⟨vm, pr, cons, panicking, panicked, uart⟩ := s
  cases cons <;> simp [consoleputc, acquire, release, uartputc, State.holding, State.setLock]

/-- The characters that `vprintf` prints. -/
def format (strings : ℕ → List UInt8) : List UInt8 → List ℕ → List UInt8
  | [], _ => []
  | [c], _ => if c = 0 ∨ c = 37 then [] else [c]
  | c :: d :: rest, args =>
    if c = 0 then []
    else if c ≠ 37 then c :: format strings (d :: rest) args
    else if d = 0 then []
    else
      let out := convert strings d (args.headD 0)
      out.1 ++ format strings rest (if out.2 then args.tail else args)

/-- Strings are printed one after the other. -/
theorem consoleputs_append (cs ds : List UInt8) :
    consoleputs (cs ++ ds) = (do consoleputs cs; consoleputs ds) := by
  funext s
  induction cs generalizing s with
  | nil => rfl
  | cons c cs ih =>
    simp only [List.cons_append, consoleputs, bind_apply]
    cases consoleputc c s with
    | ok a s1 => exact ih s1
    | panic msg s1 => rfl
    | stuck s1 => rfl

/-- `vprintf` is a sequence of calls of `consoleputc`. -/
theorem vprintf_eq (strings : ℕ → List UInt8) (fmt : List UInt8) (args : List ℕ) :
    vprintf strings fmt args = consoleputs (format strings fmt args) := by
  induction fmt, args using vprintf.induct strings with
  | case1 args => rfl
  | case2 c args h => simp [vprintf, format, h, consoleputs]
  | case3 c args h =>
    rw [vprintf, format, if_neg h, if_neg h]
    funext s
    simp only [consoleputs, bind_apply]
    cases consoleputc c s <;> rfl
  | case4 d rest args => simp [vprintf, format, consoleputs]
  | case5 c d rest args h0 h ih =>
    rw [vprintf, format, if_neg h0, if_neg h0, if_pos h, if_pos h, ih, consoleputs]
  | case6 c rest args h0 h =>
    rw [vprintf, format, if_neg h0, if_neg h0, if_neg h, if_neg h, if_pos rfl, if_pos rfl,
      consoleputs]
  | case7 c d rest args h0 h hd out ih =>
    rw [vprintf, format, if_neg h0, if_neg h0, if_neg h, if_neg h, if_neg hd, if_neg hd,
      consoleputs_append, ← ih]

end Refinement

/-! ## Programs that print no message -/

section Silence

variable {α β : Type} {s : State}

/-- With `cons_lock` held, the program returns if `Q` holds; otherwise it prints a message, and
stops in `acquire`. -/
def Silent (m : ConM α) (s : State) (Q : Prop) : Prop :=
  Q ∧ (∃ a s', m s = .ok a s') ∨ ¬ Q ∧ ∃ s', m s = .panic "acquire" s'

theorem Silent.pure {a : α} {Q : Prop} (hQ : Q) : Silent (Pure.pure a) s Q := .inl ⟨hQ, a, s, rfl⟩

/-- A program that returns goes on with the memory that it leaves, and the lock still held. -/
theorem Silent.bind {m' : ConM α} {m : VmM α} {g' : α → ConM β} {Q R : Prop}
    (hm : Silent m' s Q) (href : Refines m' m) (hs : s.consLock = true) (hR : R → Q)
    (hg : ∀ a s1, s1.consLock = true → Q → m s.vm = .ok a s1.vm → Silent (g' a) s1 R) :
    Silent (m' >>= g') s R := by
  rcases hm with ⟨hQ, a, s1, h1⟩ | ⟨hQ, s1, h1⟩
  · obtain ⟨hvm, hlock, -⟩ := href s a s1 h1
    have hrest := hg a s1 (hlock.2.trans hs) hQ hvm
    unfold Silent at hrest ⊢
    rwa [bind_apply, h1, ok_bind]
  · exact .inr ⟨fun h => hQ (hR h), s1, by rw [bind_apply, h1]; rfl⟩

end Silence

/-- Memory with an empty page table at 4096, and a page table at 8192 that maps address 0 to
the page at 20480. -/
def tables : Vm where
  mem :=
    Bytes.put (Bytes.put (Bytes.put (fun _ => 0) 8192 8 (pa2pte 12288 ||| pteV))
      12288 8 (pa2pte 16384 ||| pteV)) 16384 8 (pa2pte 20480 ||| pteV ||| pteR ||| pteU)
  freelist := []
  deny := fun _ => false
  calls := 0

/-- An idle console. -/
def idle : State := ⟨tables, false, false, false, false, []⟩

end RiscvKernel.Console
