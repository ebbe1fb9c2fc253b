import RiscvKernel.Sys.Image

/-!
# The first stack of a program

`kexec` gives a program a stack of one page above an inaccessible guard page, pushes its
arguments one after the other, and below them the array of their addresses. The stack pointer
is a multiple of 16 all the time, so that every push moves it by the size rounded up to such a
multiple; and since what is pushed is never longer than a page, the subtraction does not wrap
around.
-/

namespace RiscvKernel.Sys

open Threads
open Threads.Seq (Runs bind_assoc)

variable {img : KernelImage} {s s' s'' : Vm} {root tf sz va : ℕ} {E : String → Prop}

/-! ## The guard page -/

/-- `uvmclear` on a mapped page. -/
theorem uvmclear_runs {e : ℕ} (hs : Space img s root) (hlt : va < trapframeVa)
    (he : translate s.mem root va = some e) :
    Runs E (uvmclear root va) s fun _ s' =>
      ∃ e', hasFlag e' pteU = false ∧
        Reshapes img s s' root (replaceEntry (translate s.mem root) va (some e')) ∅ ∅ := by
  refine .of_eq_bind (walk_false s (hlt.trans trapframeVa_lt_maxva)) ?_
  rcases pteSlot_cases hs.table va with ⟨-, hnone⟩ | ⟨pt, hpt, hslot, hne⟩
  · rw [he] at hnone
    cases hnone
  · rw [hslot, if_neg hne]
    refine .gets_bind (.modify ?_)
    have hentry := translate_of_slot hpt
    rw [he] at hentry
    generalize hv : Bytes.num s.mem (pteAddr pt (px 0 va)) 8 = v at hentry ⊢
    have hlt64 : v < 2 ^ 64 := hv ▸ Bytes.num_lt _ _ 8
    have hvalid : hasFlag v pteV = true := by
      by_contra hv'
      rw [if_neg hv'] at hentry
      cases hentry
    rw [if_pos hvalid, Option.some.injEq] at hentry
    obtain ⟨hpa, hflag, huser⟩ := clear_pteU hlt64
    have hand : v &&& (2 ^ 64 - 1 - pteU) < 2 ^ 64 := (Nat.and_le_left).trans_lt hlt64
    have hm := store_leaf hs.table hs.ownsTables (hlt.trans trapframeVa_lt) hpt hand
    rw [hflag, if_pos hvalid] at hm
    refine ⟨_, huser, hm.reflags hs fun x _ => ?_⟩
    -- The page of the entry is the same.
    unfold replaceEntry
    split
    · rename_i hx
      rw [translate_congr_va hx, he, hentry, Option.map_some, Option.map_some, hpa]
    · rfl

/-- The map of a stack: a page for user code, and an inaccessible page below it. -/
structure StackMap (mem : ℕ → UInt8) (root stackbase sz : ℕ) : Prop where
  /-- The stack is mapped for user code, and writable. -/
  writable : UserWritable mem root stackbase (sz - stackbase)
  /-- The guard page is not mapped for user code. -/
  guard : ∀ va, stackbase - pgsize ≤ va → va < stackbase →
    ∃ e, translate mem root va = some e ∧ hasFlag e pteU = false

/-- The user stack, with the guard page below it. -/
structure Stack (img : KernelImage) (s : Vm) (root tf stackbase sz : ℕ) : Prop where
  /-- It is the address space of a process. -/
  proc : ProcSpace img s root tf sz
  /-- There are no holes. -/
  dense : ∀ va < pgroundup sz, translate s.mem root va ≠ none
  /-- The stack and its guard page are mapped. -/
  map : StackMap s.mem root stackbase sz
  /-- An argument fits below the stack. -/
  room : pgsize ≤ stackbase
  /-- The stack lies below the size. -/
  le : stackbase ≤ sz

/-- The stack stays mapped. -/
theorem StackMap.keeps {stackbase : ℕ} (h : StackMap s.mem root stackbase sz)
    (hle : stackbase ≤ trapframeVa)
    (hkeeps : ∀ x < trapframeVa, ∀ e, translate s.mem root x = some e →
      translate s'.mem root x = some e) : StackMap s'.mem root stackbase sz := by
  constructor
  · intro va h1 h2
    obtain ⟨e, he, hw⟩ := h.writable va h1 h2
    exact ⟨e, he.keeps hkeeps, hw⟩
  · intro va h1 h2
    obtain ⟨e, he, hu⟩ := h.guard va h1 h2
    exact ⟨e, hkeeps va (by omega) e he, hu⟩

/-- The stack stays. -/
theorem Stack.touch {stackbase : ℕ} (h : Stack img s root tf stackbase sz)
    (ht : Touches img s s' root tf sz) : Stack img s' root tf stackbase sz := by
  refine ⟨ht.proc, fun va hva => ?_, h.map.keeps (h.le.trans h.proc.sz_le) ht.keeps, h.room, h.le⟩
  obtain ⟨e, he⟩ := Option.ne_none_iff_exists'.mp (h.dense va hva)
  rw [ht.keeps va (hva.trans_le h.proc.up_le) e he]
  exact Option.some_ne_none e

/-- The guard page is cleared. -/
theorem Building.guard_runs (h : Building img s root tf sz) (hmod : sz % pgsize = 0)
    (htwo : 2 * pgsize ≤ sz)
    (hwritable : ∀ x, sz - pgsize ≤ x → x < sz → ∃ e, translate s.mem root x = some e ∧
      hasFlag e pteW = true) :
    Runs E (uvmclear root (sz - 2 * pgsize)) s fun _ s' =>
      Stack img s' root tf (sz - pgsize) sz ∧
      Moves img s s' (footprint s.mem root) (footprint s'.mem root) := by
  have hpos : 0 < pgsize := by decide
  have hle := h.proc.sz_le
  have hup := h.proc.up_le
  have hge := (pgroundup_eq (hle.trans trapframeVa_lt_maxva.le)).2.1
  obtain ⟨e, hlt, he, -⟩ := h.mapped (sz - 2 * pgsize) (by omega)
  refine (uvmclear_runs h.proc.space hlt he).mono fun _ s' hs' => ?_
  obtain ⟨e', hu', hm⟩ := hs'
  have hpage : ∀ x, sz - pgsize ≤ x → ¬ x / pgsize = (sz - 2 * pgsize) / pgsize := by
    intro x hx heq
    simp only [pgsize] at *
    omega
  have hguard : ∀ x, sz - pgsize - pgsize ≤ x → x < sz - pgsize →
      x / pgsize = (sz - 2 * pgsize) / pgsize := by
    intro x h1 h2
    simp only [pgsize] at *
    omega
  refine ⟨⟨h.proc.of_reshapes hm hle (fun x h1 h2 => ?_) (fun x h1 h2 => ?_), fun x hx => ?_,
    ⟨fun x h1 h2 => ?_, fun x h1 h2 => ?_⟩, by omega, by omega⟩, hm.footprint_moves⟩
  · rw [replaceEntry, if_neg (hpage x (by omega))]
    exact h.proc.user x h1 h2
  · rw [replaceEntry, if_neg (hpage x (by omega))]
  · rw [hm.map x ((hx.trans_le hup).trans trapframeVa_lt), replaceEntry]
    split
    · exact Option.some_ne_none e'
    · exact h.dense x hx
  · obtain ⟨e1, hlt1, he1, hu1⟩ := h.mapped x (by omega)
    obtain ⟨e2, he2, hw2⟩ := hwritable x h1 (by omega)
    rw [he1] at he2
    have heq : e1 = e2 := Option.some.inj he2
    subst heq
    refine ⟨e1, ⟨hlt1, ?_, hu1⟩, hw2⟩
    rw [hm.map x (hlt1.trans trapframeVa_lt), replaceEntry, if_neg (hpage x h1)]
    exact he1
  · refine ⟨e', ?_, hu'⟩
    rw [hm.map x (by have := trapframeVa_lt; omega), replaceEntry, if_pos (hguard x h1 h2)]

/-! ## The arguments -/

/-- How far the stack pointer moves when `n` bytes are pushed. -/
def round16 (n : ℕ) : ℕ := (n + 15) / 16 * 16

/-- The stack that the strings take. -/
def argBytes (argv : List (List UInt8)) : ℕ := (argv.map fun arg => round16 (arg.length + 1)).sum

/-- The stack that the strings and the array of their addresses take. -/
def stackNeed (argv : List (List UInt8)) : ℕ := argBytes argv + round16 ((argv.length + 1) * 8)

/-- The addresses of the strings, pushed one after the other below `sp`. -/
def argAddrs : ℕ → List (List UInt8) → List ℕ
  | _, [] => []
  | sp, arg :: rest =>
    (sp - round16 (arg.length + 1)) :: argAddrs (sp - round16 (arg.length + 1)) rest

/-- A string and the NUL after it are seen at an address. -/
def StringAt (view : ℕ → Option UInt8) (addr : ℕ) (str : List UInt8) : Prop :=
  ∀ k ≤ str.length, view (addr + k) = some (str.getD k 0)

/-- An array of eight-byte words is seen at an address. -/
def WordsAt (view : ℕ → Option UInt8) (addr : ℕ) (words : List ℕ) : Prop :=
  ∀ i < words.length, ∀ j < 8, view (addr + 8 * i + j) = some (Bytes.leByte (words.getD i 0) j)

@[simp] theorem argBytes_cons (arg : List UInt8) (rest : List (List UInt8)) :
    argBytes (arg :: rest) = round16 (arg.length + 1) + argBytes rest := by
  simp [argBytes]

theorem length_argAddrs (sp : ℕ) (argv : List (List UInt8)) :
    (argAddrs sp argv).length = argv.length := by
  induction argv generalizing sp with
  | nil => rfl
  | cons arg rest ih => simp [argAddrs, ih]

theorem round16_le {sp n : ℕ} (hmod : sp % 16 = 0) (hn : n ≤ sp) : round16 n ≤ sp := by
  unfold round16
  omega

/-- A push moves an aligned stack pointer by the rounded size. -/
theorem sub64_round {sp n : ℕ} (hsp : sp < 2 ^ 64) (hmod : sp % 16 = 0) (hn : n ≤ sp) :
    sub64 sp n - sub64 sp n % 16 = sp - round16 n := by
  unfold sub64 round16
  omega

theorem le_round16 (n : ℕ) : n ≤ round16 n := by
  unfold round16
  omega

theorem round16_mod (n : ℕ) : round16 n % 16 = 0 := by
  unfold round16
  omega

theorem argBytes_mod (argv : List (List UInt8)) : argBytes argv % 16 = 0 := by
  induction argv with
  | nil => rfl
  | cons arg rest ih =>
    have := round16_mod (arg.length + 1)
    rw [argBytes_cons]
    omega

/-- What is seen from `x` on is not changed by a write below. -/
theorem view_above {n x : ℕ} {src : ℕ → UInt8}
    (h : UserWrites img s s' root tf sz va n src) (hx : va + n ≤ x) (hlt : x < trapframeVa) :
    userView s'.mem root sz x = userView s.mem root sz x := by
  rw [h.view x hlt, patch, if_neg (by omega)]

/-- Something is pushed on the stack, by a process with another address space. -/
theorem Stack.copyout_runs {p : UserSpace} {stackbase len : ℕ} {src : ℕ → UInt8}
    (h : Stack img s root tf stackbase sz) (hlow : stackbase ≤ va) (hend : va + len ≤ sz) :
    Runs E (copyout img p root va src len) s fun r s' =>
      r = 0 ∧ UserWrites img s s' root tf sz va len src := by
  have hwritable : UserWritable s.mem root va len := fun x h1 h2 =>
    h.map.writable x (by omega) (by omega)
  refine (copyoutFrom_runs h.proc (.inr fun x h1 h2 => ?_) le_rfl).mono ?_
  · obtain ⟨e, he, -⟩ := hwritable x h1 h2
    exact ⟨e, he⟩
  · rintro r s' (hdone | ⟨-, n, -, -, hno⟩)
    · exact hdone
    · exact absurd hwritable hno

/-- What the loop over the arguments leaves: it runs out of stack or of places for addresses, or
all strings are on the stack. -/
def Pushed (s s' : Vm) (root sz stackbase sp : ℕ) (ustack : List ℕ) (argv : List (List UInt8))
    (r : Option (List ℕ × ℕ)) : Prop :=
  (r = none ∧ (sp < stackbase + argBytes argv ∨ maxarg < ustack.length + argv.length)) ∨
  (stackbase + argBytes argv ≤ sp ∧ ustack.length + argv.length ≤ maxarg ∧
    r = some (ustack ++ argAddrs sp argv, sp - argBytes argv) ∧
    List.Forall₂ (StringAt (userView s'.mem root sz)) (argAddrs sp argv) argv ∧
    ∀ x, sp ≤ x → x < sz → userView s'.mem root sz x = userView s.mem root sz x)

/-- A string stays where it is when the bytes above `sp` do not change. -/
theorem StringAt.congr {view view' : ℕ → Option UInt8} {addr : ℕ} {str : List UInt8}
    (h : StringAt view addr str) (hsame : ∀ k ≤ str.length, view' (addr + k) = view (addr + k)) :
    StringAt view' addr str :=
  fun k hk => (hsame k hk).trans (h k hk)

/-- The strings stay where they are when the stack above the last of them does not change. -/
theorem strings_congr {view view' : ℕ → Option UInt8} {sp : ℕ} {argv : List (List UInt8)}
    (h : List.Forall₂ (StringAt view) (argAddrs sp argv) argv) (hfit : argBytes argv ≤ sp)
    (hsame : ∀ x, sp - argBytes argv ≤ x → x < sp → view' x = view x) :
    List.Forall₂ (StringAt view') (argAddrs sp argv) argv := by
  induction argv generalizing sp with
  | nil => exact List.Forall₂.nil
  | cons arg rest ih =>
    rw [argBytes_cons] at hfit hsame
    obtain ⟨harg, hrest⟩ := List.forall₂_cons.mp h
    have hge := le_round16 (arg.length + 1)
    refine List.Forall₂.cons (harg.congr fun k hk => hsame _ (by omega) (by omega)) ?_
    exact ih hrest (by omega) fun x h1 h2 => hsame x (by omega) (by omega)

/-- The arguments are pushed. -/
theorem pushArgs_runs {p : UserSpace} {stackbase sp : ℕ} {argv : List (List UInt8)}
    {ustack : List ℕ} (h : Stack img s root tf stackbase sz)
    (hargs : ∀ arg ∈ argv, arg.length < pgsize) (hlow : stackbase ≤ sp) (hsp : sp ≤ sz)
    (hmod : sp % 16 = 0) (hlen : ustack.length ≤ maxarg) :
    Runs E (pushArgs img p root stackbase argv ustack sp) s fun r s' =>
      Touches img s s' root tf sz ∧ Pushed s s' root sz stackbase sp ustack argv r := by
  have hstay : Touches img s s root tf sz :=
    ⟨h.proc, Moves.refl h.proc.space.owns, fun _ _ _ he => he⟩
  -- The induction is on the arguments to go; `sp` is aligned and stays above the stack base.
  induction argv generalizing s ustack sp with
  | nil =>
    refine .pure ⟨hstay, .inr ⟨by simpa [argBytes] using hlow, by simpa using hlen, ?_, ?_,
      fun _ _ _ => rfl⟩⟩
    · simp [argAddrs, argBytes]
    · exact List.Forall₂.nil
  | cons arg rest ih =>
    have harg := hargs arg List.mem_cons_self
    have hroom := h.room
    have hle := h.proc.sz_le
    have htop := trapframeVa_lt
    have hnext := sub64_round (by omega) hmod (show arg.length + 1 ≤ sp by omega)
    have hge := le_round16 (arg.length + 1)
    have hfits := round16_le hmod (show arg.length + 1 ≤ sp by omega)
    have hround := round16_mod (arg.length + 1)
    unfold pushArgs
    by_cases hfull : ustack.length ≥ maxarg
    · rw [if_pos hfull]
      refine .pure ⟨hstay, .inl ⟨rfl, .inr ?_⟩⟩
      rw [List.length_cons]
      omega
    rw [if_neg hfull]
    dsimp only
    rw [hnext]
    by_cases hbelow : sp - round16 (arg.length + 1) < stackbase
    · rw [if_pos hbelow]
      refine .pure ⟨hstay, .inl ⟨rfl, .inl ?_⟩⟩
      rw [argBytes_cons]
      omega
    rw [if_neg hbelow]
    refine (h.copyout_runs (by omega) (by omega)).bind ?_
    rintro r s1 ⟨rfl, hw⟩
    rw [if_neg (by decide)]
    have h₁ := h.touch hw.touches
    refine (ih h₁ (fun a ha => hargs a (List.mem_cons_of_mem _ ha)) (by omega) (by omega) (by omega)
      (by rw [List.length_append, List.length_singleton]; omega)
      ⟨h₁.proc, Moves.refl h₁.proc.space.owns, fun _ _ _ he => he⟩).mono ?_
    rintro r s2 ⟨ht2, hpushed⟩
    refine ⟨hw.touches.trans ht2, ?_⟩
    rcases hpushed with ⟨rfl, hfail⟩ | ⟨hfit, hroom2, rfl, hstrings, hview⟩
    · refine .inl ⟨rfl, hfail.imp (fun hlt => ?_) (fun hlt => ?_)⟩
      · rw [argBytes_cons]
        omega
      · rw [List.length_append, List.length_singleton] at hlt
        rw [List.length_cons]
        omega
    · rw [List.length_append, List.length_singleton] at hroom2
      refine .inr ⟨?_, ?_, ?_, ?_, ?_⟩
      · rw [argBytes_cons]
        omega
      · rw [List.length_cons]
        omega
      · rw [argBytes_cons, argAddrs, List.append_assoc, Nat.sub_add_eq]
        rfl
      · rw [argAddrs]
        refine List.Forall₂.cons ?_ hstrings
        intro k hk
        rw [hview _ (by omega) (by omega), hw.view _ (by omega), patch, if_pos (by omega),
          Nat.add_sub_cancel_left]
      · intro x h1 h2
        rw [hview x (by omega) h2, view_above hw (by omega) (by omega)]

/-- The arguments do not fit. -/
def StackFull (argv : List (List UInt8)) : Prop :=
  userstack * pgsize < stackNeed argv ∨ maxarg < argv.length

/-- The stack pointer and what lies on the stack of a new program. -/
structure StackBuilt (mem : ℕ → UInt8) (root sz sp : ℕ) (argv : List (List UInt8)) : Prop where
  /-- The arguments fit. -/
  fits : ¬ StackFull argv
  /-- There is room for the stack and the guard page. -/
  room : 2 * pgsize ≤ sz
  /-- The size is a number of pages. -/
  mod : sz % pgsize = 0
  /-- The stack pointer, as an integer. -/
  sp_add : sp + stackNeed argv = sz
  /-- The stack and its guard page are mapped. -/
  map : StackMap mem root (sz - userstack * pgsize) sz
  /-- The strings. -/
  strings : List.Forall₂ (StringAt (userView mem root sz)) (argAddrs sz argv) argv
  /-- Their addresses, and a null pointer. -/
  words : WordsAt (userView mem root sz) sp (argAddrs sz argv ++ [0])

/-- The new stack: it is complete, or the arguments do not fit. -/
theorem buildStack_runs {p : UserSpace} {argv : List (List UInt8)}
    (h : Stack img s root tf (sz - userstack * pgsize) sz) (hmod : sz % pgsize = 0)
    (hargs : ∀ arg ∈ argv, arg.length < pgsize) :
    Runs E (buildStack img p root (sz - userstack * pgsize) argv sz) s fun r s' =>
      Touches img s s' root tf sz ∧
      ((r = none ∧ StackFull argv) ∨ ∃ sp, r = some sp ∧ StackBuilt s'.mem root sz sp argv) := by
  have hle := h.proc.sz_le
  have htop := trapframeVa_lt
  have hroom := h.room
  have hpage : userstack * pgsize = 4096 := by decide
  have hpg : pgsize = 4096 := rfl
  have hlow := h.le
  have hmod16 : sz % 16 = 0 := by
    rw [hpg] at hmod
    omega
  refine (pushArgs_runs h hargs h.le le_rfl hmod16 (Nat.zero_le _)).bind ?_
  rintro r s1 ⟨ht, hpushed⟩
  rcases hpushed with ⟨rfl, hfail⟩ | ⟨hfit, hcount, rfl, hstrings, hview⟩
  · refine .pure ⟨ht, .inl ⟨rfl, hfail.imp (fun hlt => ?_) (fun hlt => ?_)⟩⟩
    · unfold stackNeed
      omega
    · simpa using hlt
  have h₁ := h.touch ht
  have hargmod := argBytes_mod argv
  have hwords : ([] ++ argAddrs sz argv ++ [0]).length = argv.length + 1 := by
    simp [length_argAddrs]
  have hcount : argv.length ≤ maxarg := by simpa using hcount
  have hshort : (argv.length + 1) * 8 ≤ pgsize := by
    have hmax : maxarg = 32 := rfl
    omega
  dsimp only
  rw [hwords, sub64_round (by omega) (by omega) (by omega)]
  have hge := le_round16 ((argv.length + 1) * 8)
  have hfits : round16 ((argv.length + 1) * 8) ≤ sz - argBytes argv :=
    round16_le (by omega) (by omega)
  by_cases hbelow : sz - argBytes argv - round16 ((argv.length + 1) * 8) < sz - userstack * pgsize
  · rw [if_pos hbelow]
    refine .pure ⟨ht, .inl ⟨rfl, .inl ?_⟩⟩
    unfold stackNeed
    omega
  rw [if_neg hbelow]
  refine (h₁.copyout_runs (by omega) (by omega)).bind ?_
  rintro r s2 ⟨rfl, hw⟩
  rw [if_neg (by decide)]
  have h₂ := h₁.touch hw.touches
  refine .pure ⟨ht.trans hw.touches, .inr ⟨_, rfl, ?_, by omega, hmod, ?_, h₂.map, ?_, ?_⟩⟩
  · unfold StackFull stackNeed
    omega
  · unfold stackNeed
    omega
  · -- The array lies below the strings.
    refine strings_congr hstrings (by omega) fun x h1 h2 => ?_
    exact view_above hw (by omega) (by omega)
  · intro i hi j hj
    have hi' : i < argv.length + 1 := by simpa [length_argAddrs] using hi
    have hdiv : (8 * i + j) / 8 = i := by omega
    have hmod8 : (8 * i + j) % 8 = j := by omega
    have hoff : sz - argBytes argv - round16 ((argv.length + 1) * 8) + 8 * i + j -
        (sz - argBytes argv - round16 ((argv.length + 1) * 8)) = 8 * i + j := by omega
    rw [hw.view _ (by omega), patch, if_pos (by omega), hoff, hdiv, hmod8, List.nil_append]

/-! ## The image -/

/-- The part of `kexec` that does not look at the arguments: it loads the program and makes an
empty stack. The result is the size, and whether all went well. -/
def loadImage (img : KernelImage) (pagetable : ℕ) (file : ExecFile) (elf : List UInt8) :
    VmM (ℕ × Bool) := do
  let (ok, sz) ← loadProgram img pagetable file (field elf 56 2) (field elf 32 8) 0
  if ok = false then return (sz, false)
  else do
    let sz := pgroundup sz
    let sz1 ← uvmalloc img pagetable sz ((sz + (userstack + 1) * pgsize) % 2 ^ 64) pteW
    if sz1 = 0 then return (sz, false)
    else do
      uvmclear pagetable (sz1 - (userstack + 1) * pgsize)
      return (sz1, true)

/-- The program can be loaded, and its size with the stack is `sz`. -/
def LoadsTo (img : KernelImage) (pagetable : ℕ) (file : ExecFile) (elf : List UInt8) (s : Vm)
    (sz : ℕ) : Prop :=
  ∃ s', loadImage img pagetable file elf s = .ok (sz, true) s'

/-- The image is loaded, and then the arguments are pushed. -/
theorem buildImage_eq {p : UserSpace} {file : ExecFile} {elf : List UInt8}
    {argv : List (List UInt8)} :
    buildImage img p root file elf argv = (do
      let r ← loadImage img root file elf
      if r.2 = false then return (r.1, none)
      else do
        let sp ← buildStack img p root (r.1 - userstack * pgsize) argv r.1
        return (r.1, sp)) := by
  rw [buildImage, loadImage, bind_assoc]
  congr 1
  funext ⟨ok, sz⟩
  cases ok with
  | false => rfl
  | true =>
    simp only [Bool.true_eq_false, if_false]
    rw [bind_assoc]
    congr 1
    funext sz1
    split
    · rfl
    · rw [bind_assoc]
      rfl

/-- The image without its arguments. Whether or not it can be loaded, its size is known. -/
theorem loadImage_runs {file : ExecFile} {elf : List UInt8} (h : ProcSpace img s root tf 0) :
    Runs E (loadImage img root file elf) s fun r s' =>
      ProcSpace img s' root tf r.1 ∧
      Moves img s s' (footprint s.mem root) (footprint s'.mem root) ∧
      (r.2 = true → r.1 % pgsize = 0 ∧ Stack img s' root tf (r.1 - userstack * pgsize) r.1) := by
  refine (loadProgram_runs (Building.empty h)).bind fun r s1 h₁ => ?_
  obtain ⟨ok, sz⟩ := r
  dsimp only at h₁ ⊢
  by_cases hok : ok = false
  · rw [if_pos hok]
    exact .pure ⟨h₁.building.proc, h₁.moves, (absurd · Bool.false_ne_true)⟩
  rw [if_neg hok]
  have hround := h₁.building.round
  have hup := pgroundup_pgroundup h₁.building.proc.sz_le
  have hmod := (pgroundup_eq (h₁.building.proc.sz_le.trans trapframeVa_lt_maxva.le)).1
  have hle := hround.proc.sz_le
  have hpos : 0 < pgsize := by decide
  have hwrap : (pgroundup sz + (userstack + 1) * pgsize) % 2 ^ 64 = pgroundup sz + 2 * pgsize := by
    have htop := trapframeVa_lt
    simp only [userstack, pgsize] at *
    omega
  refine (hround.uvmalloc_runs (by decide)).bind fun sz1 s2 h₂ => ?_
  rw [hwrap] at h₂
  by_cases hz : sz1 = 0
  · rw [if_pos hz]
    rcases h₂ with ⟨-, h₂⟩ | ⟨hsz1, -⟩
    · exact .pure ⟨h₂.building.proc, h₁.moves.trans h₂.moves, (absurd · Bool.false_ne_true)⟩
    · omega
  rw [if_neg hz]
  obtain ⟨hz', -⟩ | ⟨hsz1, h₂, hstack⟩ := h₂
  · exact absurd hz' hz
  have hsz1' : sz1 = pgroundup sz + 2 * pgsize := by omega
  have hmod1 : sz1 % pgsize = 0 := by rw [hsz1', Nat.add_mul_mod_self_right, hmod]
  have hguard : sz1 - (userstack + 1) * pgsize = sz1 - 2 * pgsize := by rw [userstack]
  have hbase : sz1 - userstack * pgsize = sz1 - pgsize := by rw [userstack, one_mul]
  rw [hguard]
  refine (h₂.building.guard_runs hmod1 (by omega) fun x h1 h2 => ?_).bind ?_
  · obtain ⟨a, -, he⟩ := hstack x (by omega) (by omega)
    refine ⟨_, he, ?_⟩
    rw [hasFlag_pteFor_or a (by decide) (by decide)]
    decide
  rintro - s3 ⟨hstack3, hm3⟩
  refine .pure ⟨hstack3.proc, (h₁.moves.trans h₂.moves).trans hm3, fun _ => ⟨hmod1, ?_⟩⟩
  rw [hbase]
  exact hstack3

/-- The new image. Whether or not it can be built, its size is known; and it is built unless the
program cannot be loaded or the arguments do not fit. -/
theorem buildImage_runs {p : UserSpace} {file : ExecFile} {elf : List UInt8}
    {argv : List (List UInt8)} (h : ProcSpace img s root tf 0)
    (hargs : ∀ arg ∈ argv, arg.length < pgsize) :
    Runs E (buildImage img p root file elf argv) s fun r s' =>
      ProcSpace img s' root tf r.1 ∧
      Moves img s s' (footprint s.mem root) (footprint s'.mem root) ∧
      (r.2 = none → ∀ sz, LoadsTo img root file elf s sz → StackFull argv) ∧
      ∀ sp, r.2 = some sp → LoadsTo img root file elf s r.1 ∧
        (∀ va < pgroundup r.1, translate s'.mem root va ≠ none) ∧
        StackBuilt s'.mem root r.1 sp argv := by
  rw [buildImage_eq]
  refine (loadImage_runs h).eq_ok.bind ?_
  rintro ⟨sz, ok⟩ s1 ⟨⟨hproc, hm, hstack⟩, hload⟩
  by_cases hok : ok = false
  · rw [if_pos hok]
    refine .pure ⟨hproc, hm, fun _ sz' hsz' => ?_, fun _ heq => nomatch heq⟩
    obtain ⟨s2, hload'⟩ := hsz'
    rw [hload, hok] at hload'
    cases hload'
  rw [if_neg hok]
  have hok : ok = true := by simpa using hok
  obtain ⟨hmod, hstack⟩ := hstack hok
  refine (buildStack_runs hstack hmod hargs).bind ?_
  rintro r s2 ⟨ht, hr⟩
  refine .pure ⟨ht.proc, hm.trans ht.moves, ?_, ?_⟩
  · rintro rfl - -
    rcases hr with ⟨-, hfull⟩ | ⟨sp, hsp, -⟩
    · exact hfull
    · cases hsp
  · rintro sp rfl
    rcases hr with ⟨hnone, -⟩ | ⟨sp', hsp, hbuilt⟩
    · cases hnone
    · cases hsp
      exact ⟨⟨s1, hok ▸ hload⟩, (hstack.touch ht).dense, hbuilt⟩

end RiscvKernel.Sys
