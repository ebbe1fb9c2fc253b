import RiscvKernel.Str
import RiscvKernel.Kernel.Model
import RiscvKernel.Fs.Names
import Mathlib.Data.List.DropRight
import Mathlib.Data.List.Forall2

/-!
# Path names

`skipelem` of `fs.c` as a function on memory: `path` is a pointer to a string and `name` one to a
buffer of `DIRSIZ` bytes. Called again and again it produces the components of the path, the
longest parts without a slash.
-/

namespace RiscvKernel

open Function

/-- `while(test(*path)) path++`. -/
def skipWhile (mem : ℕ → UInt8) (test : UInt8 → Bool) : ℕ → ℕ → Option ℕ
  | 0, _ => none
  | fuel + 1, path =>
    if test (mem path) then skipWhile mem test fuel ((path + 1) % 2 ^ 64) else some path

/-- Copy an element of `len` bytes at `s` to `name`; `len` is an `int`. -/
def copyElem (mem : ℕ → UInt8) (name s : ℕ) (len : BitVec 32) : ℕ → UInt8 :=
  if (dirsiz : ℤ) ≤ len.toInt then Str.memmove mem name s dirsiz
  else update (Str.memmove mem name s len.toNat) ((name + len.toInt) % 2 ^ 64).toNat 0

/-- `skipelem`: the pointer it returns and the memory after it, if its loops end within `fuel`
rounds. -/
def skipelemAt (fuel : ℕ) (mem : ℕ → UInt8) (path name : ℕ) : Option (ℕ × (ℕ → UInt8)) := do
  let path ← skipWhile mem (· = slash) fuel path
  if mem path = 0 then return (0, mem)
  else
    let s := path
    let path ← skipWhile mem (fun c => c ≠ slash ∧ c ≠ 0) fuel path
    let mem := copyElem mem name s (BitVec.ofInt 32 (path - s))
    let path ← skipWhile mem (· = slash) fuel path
    return (path, mem)

/-- Call `skipelem` until it returns 0: the pointers and the memories after each call. -/
def skipelems (fuel name : ℕ) : ℕ → (ℕ → UInt8) → ℕ → Option (List (ℕ × (ℕ → UInt8)))
  | 0, _, _ => none
  | rounds + 1, mem, path => do
    let (path, mem) ← skipelemAt fuel mem path name
    if path = 0 then return []
    else
      let rest ← skipelems fuel name rounds mem path
      return (path, mem) :: rest

/-- The components of a path. -/
def components (path : List UInt8) : List (List UInt8) := (path.splitOn slash).filter (· ≠ [])

/-! ## The components -/

section Components

variable {path w rest : List UInt8}

/-- A slash separates components. -/
theorem components_append (w rest : List UInt8) :
    components (w ++ slash :: rest) = components w ++ components rest := by
  unfold components
  rw [List.splitOn_append_cons_self, List.filter_append]

/-- A leading slash is skipped. -/
theorem components_slash (rest : List UInt8) : components (slash :: rest) = components rest :=
  components_append [] rest

/-- Slashes in front do not count. -/
theorem components_dropWhile (path : List UInt8) :
    components (path.dropWhile (· = slash)) = components path := by
  induction path with
  | nil => rfl
  | cons c path ih =>
    rw [List.dropWhile_cons]
    split
    · rename_i hc
      rw [ih, of_decide_eq_true hc, components_slash]
    · rfl

/-- A word without slashes is one component. -/
theorem components_word (hne : w ≠ []) (hw : slash ∉ w) : components w = [w] := by
  unfold components
  rw [List.splitOn_eq_singleton hw]
  simp [hne]

/-- The first component is a word that ends at a slash or with the path. -/
theorem components_cons (hne : w ≠ []) (hw : slash ∉ w)
    (hrest : ∀ c, rest.head? = some c → c = slash) :
    components (w ++ rest) = w :: components (rest.dropWhile (· = slash)) := by
  rw [components_dropWhile]
  cases rest with
  | nil =>
    rw [List.append_nil, components_word hne hw]
    rfl
  | cons c rest =>
    rw [hrest c rfl, components_append, components_word hne hw, components_slash]
    rfl

/-- The word at the front of a path is its first component. -/
theorem components_of_ne {c : UInt8} (hc : c ≠ slash) (path : List UInt8) :
    components (c :: path) = (c :: path).takeWhile (· ≠ slash) ::
      components (((c :: path).dropWhile (· ≠ slash)).dropWhile (· = slash)) := by
  have hword : slash ∉ (c :: path).takeWhile (· ≠ slash) := by
    intro hmem
    simpa using List.mem_takeWhile_imp hmem
  have hrest : ∀ x, ((c :: path).dropWhile (· ≠ slash)).head? = some x → x = slash := by
    intro x hx
    have hstop := List.head?_dropWhile_not (fun y : UInt8 => decide (y ≠ slash)) (c :: path)
    rw [hx] at hstop
    simpa using hstop
  rw [← components_cons (by simp [hc]) hword hrest, List.takeWhile_append_dropWhile]

/-- After the slashes in front comes a word. -/
theorem ne_slash_of_dropWhile {c : UInt8} (h : path.dropWhile (· = slash) = c :: rest) :
    c ≠ slash := by
  have hstop := List.head?_dropWhile_not (fun x : UInt8 => decide (x = slash)) path
  rw [h] at hstop
  simpa using hstop

/-- A path without components consists of slashes. -/
theorem components_eq_nil (path : List UInt8) :
    components path = [] ↔ path.dropWhile (· = slash) = [] := by
  rw [← components_dropWhile]
  cases hdrop : path.dropWhile (· = slash) with
  | nil => exact ⟨fun _ => rfl, fun _ => rfl⟩
  | cons c rest =>
    rw [components_of_ne (ne_slash_of_dropWhile hdrop)]
    simp

/-- `skipelem` finds no element exactly if there is no component. -/
theorem skipelem_eq_none (h : skipelem path = none) : components path = [] := by
  rw [components_eq_nil]
  unfold skipelem at h
  split at h
  · assumption
  · cases h

/-- `skipelem` takes the first component off the path, and no slash is left in front. -/
theorem skipelem_eq_some {name : Name} (h : skipelem path = some (name, rest)) :
    ∃ w, components path = w :: components rest ∧ name = w.take dirsiz ∧
      (rest = [] ↔ components rest = []) := by
  unfold skipelem at h
  split at h
  · cases h
  · rename_i c cs hdrop
    cases h
    refine ⟨_, ?_, rfl, ?_⟩
    · rw [← components_dropWhile, hdrop, components_of_ne (ne_slash_of_dropWhile hdrop)]
    · rw [components_eq_nil, List.dropWhile_idempotent]

end Components

/-! ## Strings in memory -/

/-- A string and its NUL stand at an address. -/
def HoldsString (mem : ℕ → UInt8) : ℕ → List UInt8 → Prop
  | a, [] => mem a = 0
  | a, c :: cs => c ≠ 0 ∧ mem a = c ∧ HoldsString mem (a + 1) cs

/-- The name in a buffer: it ends with the buffer or with a NUL. -/
def nameAt (mem : ℕ → UInt8) (name : ℕ) : Name := nameOf fun j => mem (name + j)

/-- A buffer holds the first bytes of a component, and a NUL if there is room. -/
structure HoldsElem (mem : ℕ → UInt8) (name : ℕ) (w : List UInt8) : Prop where
  /-- The bytes. -/
  byte : ∀ j < dirsiz, j < w.length → mem (name + j) = w.getD j 0
  /-- The NUL. -/
  nul : w.length < dirsiz → mem (name + w.length) = 0

section Strings

variable {mem mem' : ℕ → UInt8} {a fuel : ℕ} {cs : List UInt8} {test : UInt8 → Bool}

theorem HoldsString.congr (h : HoldsString mem a cs)
    (hsame : ∀ x, a ≤ x → x ≤ a + cs.length → mem' x = mem x) : HoldsString mem' a cs := by
  induction cs generalizing a with
  | nil => exact (hsame a le_rfl le_rfl).trans h
  | cons c cs ih =>
    obtain ⟨hc, hbyte, hrest⟩ := h
    rw [List.length_cons] at hsame
    refine ⟨hc, (hsame a le_rfl (by omega)).trans hbyte, ih hrest ?_⟩
    intro x h1 h2
    exact hsame x (by omega) (by omega)

/-- The rest of a string is a string. -/
theorem HoldsString.tail {u v : List UInt8} (h : HoldsString mem a (u ++ v)) :
    HoldsString mem (a + u.length) v := by
  induction u generalizing a with
  | nil => exact h
  | cons c u ih =>
    rw [List.length_cons, Nat.add_comm u.length 1, ← Nat.add_assoc]
    exact ih h.2.2

theorem HoldsString.byte (h : HoldsString mem a cs) {k : ℕ} (hk : k ≤ cs.length) :
    mem (a + k) = cs.getD k 0 := by
  induction k generalizing a cs with
  | zero =>
    cases cs with
    | nil => exact h
    | cons c cs => exact h.2.1
  | succ k ih =>
    cases cs with
    | nil => cases hk
    | cons c cs =>
      rw [← Nat.add_assoc, Nat.add_right_comm, List.getD_cons_succ]
      exact ih h.2.2 (by simpa using hk)

/-- A string has no NUL. -/
theorem HoldsString.ne_zero (h : HoldsString mem a cs) : ∀ c ∈ cs, c ≠ 0 := by
  induction cs generalizing a with
  | nil => intro c hc; cases hc
  | cons c cs ih =>
    intro x hx
    rcases List.mem_cons.1 hx with rfl | hx
    · exact h.1
    · exact ih h.2.2 x hx

/-- The loop stops at the first byte that fails the test, at the NUL at the latest. -/
theorem skipWhile_eq {p : UInt8 → Bool} (h : HoldsString mem a cs)
    (hend : a + cs.length < 2 ^ 64) (hnul : test 0 = false) (htest : ∀ c, c ≠ 0 → test c = p c)
    (hfuel : cs.length < fuel) :
    skipWhile mem test fuel a = some (a + (cs.takeWhile p).length) := by
  induction cs generalizing a fuel with
  | nil =>
    cases fuel with
    | zero => cases hfuel
    | succ fuel =>
      have hbyte : mem a = 0 := h
      rw [skipWhile, if_neg (by rw [hbyte, hnul]; decide)]
      rfl
  | cons c cs ih =>
    cases fuel with
    | zero => cases hfuel
    | succ fuel =>
      obtain ⟨hc, hbyte, hrest⟩ := h
      rw [List.length_cons] at hend hfuel
      rw [skipWhile, hbyte, List.takeWhile_cons, htest c hc]
      cases p c with
      | false => rfl
      | true =>
        rw [if_pos rfl, if_pos rfl, Nat.mod_eq_of_lt (by omega),
          ih hrest (by omega) (by omega), List.length_cons]
        congr 1
        omega

/-- What the loop leaves of the string. -/
theorem HoldsString.dropWhile (h : HoldsString mem a cs) (p : UInt8 → Bool) :
    HoldsString mem (a + (cs.takeWhile p).length) (cs.dropWhile p) := by
  rw [← List.takeWhile_append_dropWhile (p := p) (l := cs)] at h
  exact h.tail

theorem length_takeWhile_dropWhile (p : UInt8 → Bool) (cs : List UInt8) :
    (cs.takeWhile p).length + (cs.dropWhile p).length = cs.length := by
  rw [← List.length_append, List.takeWhile_append_dropWhile]

end Strings

/-! ## One element -/

section Element

variable {mem : ℕ → UInt8} {path name s fuel : ℕ} {cs w rest : List UInt8}

/-- The name in a buffer that holds a component. -/
theorem HoldsElem.nameAt_eq (h : HoldsElem mem name w) (hw : ∀ c ∈ w, c ≠ 0) :
    nameAt mem name = w.take dirsiz := by
  have hsplit : ((List.range dirsiz).map fun j => mem (name + j)) =
      w.take dirsiz ++ ((List.range dirsiz).map fun j => mem (name + j)).drop w.length := by
    apply List.ext_getElem
    · simp
      omega
    · intro j h1 h2
      rw [List.length_map, List.length_range] at h1
      rw [List.getElem_append]
      split
      · rename_i hj
        rw [List.length_take] at hj
        rw [List.getElem_map, List.getElem_range, h.byte j h1 (by omega), List.getElem_take]
        simp [show j < w.length by omega]
      · rename_i hj
        rw [List.length_take] at hj
        rw [List.getElem_drop]
        congr 1
        rw [List.length_take]
        omega
  have hstop : (((List.range dirsiz).map fun j => mem (name + j)).drop w.length).takeWhile
      (· ≠ 0) = [] := by
    by_cases hshort : w.length < dirsiz
    · rw [List.drop_eq_getElem_cons (by simpa using hshort), List.getElem_map,
        List.getElem_range, h.nul hshort]
      rfl
    · rw [List.drop_eq_nil_of_le (by simpa using hshort)]
      rfl
  unfold nameAt nameOf strOf
  rw [hsplit, List.takeWhile_append_of_pos, hstop, List.append_nil]
  intro c hc
  simpa using hw c (List.mem_of_mem_take hc)

/-- The buffer is terminated exactly if the component is shorter. -/
theorem HoldsElem.terminated (h : HoldsElem mem name w) (hw : ∀ c ∈ w, c ≠ 0) :
    (∃ j < dirsiz, mem (name + j) = 0) ↔ w.length < dirsiz := by
  constructor
  · rintro ⟨j, hj, hzero⟩
    by_contra hlong
    rw [h.byte j hj (by omega), List.getD_eq_getElem _ _ (by omega)] at hzero
    exact hw _ (List.getElem_mem _) hzero
  · intro hshort
    exact ⟨w.length, hshort, h.nul hshort⟩

/-- Copying an element shorter than `2 ^ 31` bytes fills the buffer and changes nothing else. -/
theorem copyElem_spec (h : HoldsString mem s (w ++ rest)) (hlen : w.length < 2 ^ 31)
    (hs : s + w.length ≤ 2 ^ 64) (hname : name + dirsiz ≤ 2 ^ 64) :
    HoldsElem (copyElem mem name s (BitVec.ofInt 32 w.length)) name w ∧
      ∀ x, x < name ∨ name + dirsiz ≤ x →
        copyElem mem name s (BitVec.ofInt 32 w.length) x = mem x := by
  have hint : (BitVec.ofInt 32 (w.length : ℤ)).toInt = w.length := by
    rw [BitVec.toInt_ofInt, Int.bmod_eq_of_le (by omega) (by omega)]
  have hnat : (BitVec.ofInt 32 (w.length : ℤ)).toNat = w.length := by
    rw [BitVec.toNat_ofInt]
    omega
  have hbyte : ∀ j < w.length, mem (s + j) = w.getD j 0 := by
    intro j hj
    rw [h.byte (by rw [List.length_append]; omega), List.getD_append _ _ _ _ hj]
  unfold copyElem
  rw [hint, hnat]
  split
  · rename_i hlong
    rw [Str.memmove_eq (by omega) hname]
    constructor
    · constructor
      · intro j hj hjw
        rw [Bytes.blit_inside _ _ (by omega) (by omega), Nat.add_sub_cancel_left, hbyte j hjw]
      · intro hshort
        omega
    · intro x hx
      exact Bytes.blit_outside _ _ (by omega)
  · rename_i hshort
    have haddr : (((name : ℤ) + (w.length : ℤ)) % 2 ^ 64).toNat = name + w.length := by omega
    rw [Str.memmove_eq (by omega) (by omega), haddr]
    constructor
    · constructor
      · intro j hj hjw
        rw [update_of_ne (by omega), Bytes.blit_inside _ _ (by omega) (by omega),
          Nat.add_sub_cancel_left, hbyte j hjw]
      · intro _
        rw [update_self]
    · intro x hx
      rw [update_of_ne (by omega)]
      exact Bytes.blit_outside _ _ (by omega)

/-- The three loops of `skipelem` one after the other. -/
theorem skipelemAt_word {e q : ℕ} (h1 : skipWhile mem (· = slash) fuel path = some s)
    (hs : mem s ≠ 0) (h2 : skipWhile mem (fun c => c ≠ slash ∧ c ≠ 0) fuel s = some e)
    (h3 : skipWhile (copyElem mem name s (BitVec.ofInt 32 (e - s))) (· = slash) fuel e = some q) :
    skipelemAt fuel mem path name = some (q, copyElem mem name s (BitVec.ofInt 32 (e - s))) := by
  unfold skipelemAt
  rw [h1]
  change (if mem s = 0 then _ else _) = _
  rw [if_neg hs, h2]
  change (skipWhile _ _ _ _).bind _ = _
  rw [h3]
  rfl

/-- `skipelem` on a string in memory does what it does on the list of its bytes. -/
theorem skipelemAt_eq (h : HoldsString mem path cs) (hend : path + cs.length < 2 ^ 64)
    (hlen : cs.length < 2 ^ 31) (hname : name + dirsiz ≤ 2 ^ 64)
    (hapart : name + dirsiz ≤ path ∨ path + cs.length < name) (hfuel : cs.length < fuel) :
    match skipelem cs with
    | none => skipelemAt fuel mem path name = some (0, mem)
    | some (elem, rest) => ∃ path' mem', skipelemAt fuel mem path name = some (path', mem') ∧
        path < path' ∧ path' + rest.length = path + cs.length ∧ HoldsString mem' path' rest ∧
        nameAt mem' name = elem ∧
        (∃ w, components cs = w :: components rest ∧ HoldsElem mem' name w ∧ ∀ c ∈ w, c ≠ 0) ∧
        ∀ x, x < name ∨ name + dirsiz ≤ x → mem' x = mem x := by
  have h₁ := h.dropWhile (· = slash)
  have hlen1 := length_takeWhile_dropWhile (· = slash) cs
  have hskip1 : skipWhile mem (· = slash) fuel path = _ :=
    skipWhile_eq h hend (by decide) (fun _ _ => rfl) hfuel
  generalize (cs.takeWhile (· = slash)).length = k1 at h₁ hlen1 hskip1
  unfold skipelem
  cases hdrop : cs.dropWhile (· = slash) with
  | nil =>
    rw [hdrop] at h₁
    unfold skipelemAt
    rw [hskip1]
    exact if_pos h₁
  | cons c tl =>
    have hne := ne_slash_of_dropWhile hdrop
    have hcomp := components_of_ne hne tl
    rw [← hdrop, components_dropWhile, hdrop] at hcomp
    rw [hdrop] at h₁ hlen1
    have hbyte : mem (path + k1) ≠ 0 := by
      rw [h₁.2.1]
      exact h₁.1
    have hskip2 : skipWhile mem (fun c => c ≠ slash ∧ c ≠ 0) fuel (path + k1) = _ :=
      skipWhile_eq (p := (· ≠ slash)) h₁ (by omega) (by decide) (by intro c hc; simp [hc])
        (by omega)
    have hpos : 0 < ((c :: tl).takeWhile (· ≠ slash)).length := by
      rw [List.takeWhile_cons, if_pos (by simpa using hne)]
      exact Nat.succ_pos _
    have hlen2 := length_takeWhile_dropWhile (· ≠ slash) (c :: tl)
    rw [← List.takeWhile_append_dropWhile (p := (· ≠ slash)) (l := c :: tl)] at h₁
    dsimp only
    generalize (c :: tl).takeWhile (· ≠ slash) = w at *
    generalize (c :: tl).dropWhile (· ≠ slash) = r at *
    -- The element is copied, and the rest of the string is still there.
    have hdiff : ((path + k1 + w.length : ℕ) : ℤ) - (path + k1 : ℕ) = w.length := by omega
    obtain ⟨helem, hkeep⟩ := copyElem_spec h₁ (by omega) (by omega) hname
    rw [← hdiff] at helem hkeep
    have h₂ : HoldsString (copyElem mem name (path + k1) _) (path + k1 + w.length) r :=
      h₁.tail.congr fun x h1 h2 => hkeep x (by omega)
    have hlen3 := length_takeWhile_dropWhile (· = slash) r
    have hskip3 : skipWhile _ (· = slash) fuel (path + k1 + w.length) = _ :=
      skipWhile_eq h₂ (by omega) (by decide) (fun _ _ => rfl) (by omega)
    have hw : ∀ x ∈ w, x ≠ 0 := fun x hx => h₁.ne_zero x (List.mem_append_left r hx)
    exact ⟨_, _, skipelemAt_word hskip1 hbyte hskip2 hskip3, by omega, by omega,
      h₂.dropWhile (· = slash), helem.nameAt_eq hw, ⟨w, hcomp, helem, hw⟩, hkeep⟩

/-- The empty string. -/
theorem HoldsString.nul_iff (h : HoldsString mem path cs) : mem path = 0 ↔ cs = [] := by
  cases cs with
  | nil => exact ⟨fun _ => rfl, fun _ => h⟩
  | cons c cs => simp [h.2.1, h.1]

/-- The calls of `skipelem` end, produce the components in order, and only the pointer that the
last of them returns is at the NUL. -/
theorem skipelems_eq {rounds : ℕ} (h : HoldsString mem path cs) (hend : path + cs.length < 2 ^ 64)
    (hlen : cs.length < 2 ^ 31) (hname : name + dirsiz ≤ 2 ^ 64)
    (hapart : name + dirsiz ≤ path ∨ path + cs.length < name) (hfuel : cs.length < fuel)
    (hrounds : cs.length < rounds) :
    ∃ l, skipelems fuel name rounds mem path = some l ∧
      List.Forall₂ (fun x w => HoldsElem x.2 name w ∧
        ((∃ j < dirsiz, x.2 (name + j) = 0) ↔ w.length < dirsiz)) l (components cs) ∧
      ∀ l1 q m l2, l = l1 ++ (q, m) :: l2 → (m q = 0 ↔ l2 = []) := by
  induction rounds generalizing mem path cs with
  | zero => cases hrounds
  | succ rounds ih =>
    have hone := skipelemAt_eq h hend hlen hname hapart hfuel
    rw [skipelems]
    cases hskip : skipelem cs with
    | none =>
      rw [hskip] at hone
      rw [hone, skipelem_eq_none hskip]
      refine ⟨[], rfl, List.Forall₂.nil, ?_⟩
      intro l1 q m l2 hl
      simp at hl
    | some x =>
      rw [hskip] at hone
      obtain ⟨q, mem', heq, hlt, hsum, hrest, -, ⟨w, hcomp, helem, hw⟩, -⟩ := hone
      obtain ⟨l, hl, hforall, hlast⟩ := ih hrest (by omega) (by omega) (by omega) (by omega)
        (by omega)
      refine ⟨(q, mem') :: l, ?_, ?_, ?_⟩
      · rw [heq]
        change (if q = 0 then _ else _) = _
        rw [if_neg (by omega), hl]
        rfl
      · rw [hcomp]
        exact List.Forall₂.cons ⟨helem, helem.terminated hw⟩ hforall
      · intro l1 q' m l2 hsplit
        cases l1 with
        | nil =>
          obtain ⟨-, -, -, hnil⟩ := skipelem_eq_some hskip
          cases hsplit
          rw [hrest.nul_iff, hnil, ← List.length_eq_zero_iff, ← List.length_eq_zero_iff,
            hforall.length_eq]
        | cons x l1 =>
          cases hsplit
          exact hlast l1 q' m l2 rfl

end Element

/-! ## A component whose length does not fit an `int` -/

section Long

variable {mem : ℕ → UInt8} {a n : ℕ} {c : UInt8}

theorem holdsString_replicate (hc : c ≠ 0) (hbyte : ∀ k < n, mem (a + k) = c)
    (hnul : mem (a + n) = 0) : HoldsString mem a (List.replicate n c) := by
  induction n generalizing a with
  | zero => exact hnul
  | succ n ih =>
    refine ⟨hc, hbyte 0 (Nat.succ_pos n), ih ?_ ?_⟩
    · intro k hk
      rw [Nat.add_right_comm]
      exact hbyte (k + 1) (by omega)
    · rw [Nat.add_right_comm]
      exact hnul

/-- A memory with a string of `2 ^ 32 + 3` letters at address 1. -/
def longPath : ℕ → UInt8 := fun a => if 1 ≤ a ∧ a < 2 ^ 32 + 4 then 97 else 0

/-- The length of the component is taken for 3, and so is the name. -/
theorem skipelem_wraps :
    ∃ cs q mem', HoldsString longPath 1 cs ∧ components cs = [cs] ∧ dirsiz ≤ cs.length ∧
      skipelemAt (2 ^ 33) longPath 1 (2 ^ 33) = some (q, mem') ∧
      nameAt mem' (2 ^ 33) = [97, 97, 97] := by
  obtain ⟨n, hn⟩ : ∃ n, n = 2 ^ 32 + 3 := ⟨_, rfl⟩
  have hstr : HoldsString longPath 1 (List.replicate n 97) := by
    apply holdsString_replicate (by decide)
    · intro k hk
      exact if_pos (by omega)
    · exact if_neg (by omega)
  have hlen : (List.replicate n (97 : UInt8)).length = n := List.length_replicate
  have hnone : (List.replicate n (97 : UInt8)).takeWhile (· = slash) = [] := by
    rw [hn, List.replicate_succ]
    rfl
  have hall : (List.replicate n (97 : UInt8)).takeWhile (· ≠ slash) = List.replicate n 97 := by
    rw [List.takeWhile_eq_self_iff]
    intro c hc
    rw [List.eq_of_mem_replicate hc]
    decide
  have hskip1 : skipWhile longPath (· = slash) (2 ^ 33) 1 = some (1 + 0) := by
    rw [skipWhile_eq hstr (by omega) (by decide) (fun _ _ => rfl) (by omega), hnone]
    rfl
  have hskip2 : skipWhile longPath (fun c => c ≠ slash ∧ c ≠ 0) (2 ^ 33) (1 + 0) =
      some (1 + n) := by
    rw [skipWhile_eq (p := (· ≠ slash)) hstr (by omega) (by decide)
      (by intro c hc; simp [hc]) (by omega), hall, hlen]
  -- As an `int` the length is 3.
  have hint : BitVec.ofInt 32 ((1 + n : ℕ) - (1 + 0 : ℕ)) = 3#32 := by
    have hdiff : ((1 + n : ℕ) : ℤ) - (1 + 0 : ℕ) = 2 ^ 32 + 3 := by omega
    rw [hdiff]
    decide
  have hcopy : copyElem longPath (2 ^ 33) (1 + 0) (BitVec.ofInt 32 ((1 + n : ℕ) - (1 + 0 : ℕ))) =
      update (Bytes.blit longPath (2 ^ 33) 3 fun k => longPath (1 + 0 + k))
        (2 ^ 33 + 3) 0 := by
    rw [hint, ← Str.memmove_eq (by decide) (by decide)]
    exact if_neg (by decide)
  have hend : HoldsString (copyElem longPath (2 ^ 33) (1 + 0)
      (BitVec.ofInt 32 ((1 + n : ℕ) - (1 + 0 : ℕ)))) (1 + n) [] := by
    rw [hcopy]
    change update _ _ _ _ = 0
    rw [update_of_ne (by omega), Bytes.blit_outside _ _ (by omega)]
    exact if_neg (by omega)
  have hskip3 : skipWhile _ (· = slash) (2 ^ 33) (1 + n) = _ :=
    skipWhile_eq hend (by rw [List.length_nil]; omega) (by decide) (fun _ _ => rfl) (by decide)
  refine ⟨List.replicate n 97, _, _, hstr, ?_, ?_, skipelemAt_word hskip1 ?_ hskip2 hskip3, ?_⟩
  · apply components_word
    · rw [Ne, List.replicate_eq_nil_iff]
      omega
    · intro hmem
      exact absurd (List.eq_of_mem_replicate hmem) (by decide)
  · rw [hlen, hn]
    decide
  · decide
  · rw [hcopy]
    decide

end Long

end RiscvKernel
