import RiscvKernel.Vm.Grow

/-!
# Making and freeing the page table of a process

`freewalk` gives back a page table whose lowest tables are empty, `uvmfree` and
`proc_freepagetable` give back a whole address space, and `proc_pagetable` makes one that
maps the trampoline and the trapframe only.
-/

namespace RiscvKernel

open Threads
open Threads.Seq (Runs)

variable {img : KernelImage} {s s' s'' : Vm} {root va d pt : ℕ} {E : String → Prop}

/-! ## Freeing the tables -/

/-- The upper tables hold pointers only, and the lowest ones hold nothing. -/
def Bare (mem : ℕ → UInt8) : ℕ → ℕ → Prop
  | 0, pt => ∀ i, hasFlag (pteAt mem pt i) pteV = false
  | d + 1, pt => ∀ i, hasFlag (pteAt mem pt i) pteV = true →
      hasFlag (pteAt mem pt i) (pteR ||| pteW ||| pteX) = false ∧
      Bare mem d (pte2pa (pteAt mem pt i))

/-- A bare tree of tables, `d` levels deep, that can be given back. -/
structure Spare (img : KernelImage) (s : Vm) (d pt : ℕ) : Prop where
  /-- Each table is reached once. -/
  tree : Radix.Tree (pteChild s.mem) d pt
  /-- There are no leaves. -/
  bare : Bare s.mem d pt
  /-- The tables are pages of the allocator. -/
  page : ∀ a ∈ Radix.nodes (pteChild s.mem) d pt, IsPage img a
  /-- The tables are in use. -/
  owns : Owns img s (Radix.nodes (pteChild s.mem) d pt)

/-- A valid entry has a child. -/
theorem pteChild_of_valid {mem : ℕ → UInt8} {i : Fin 512}
    (h : hasFlag (pteAt mem pt i) pteV = true) :
    pteChild mem pt i = some (pte2pa (pteAt mem pt i)) := by rw [pteChild, if_pos h]

theorem Bare.congr {mem mem' : ℕ → UInt8} (h : Bare mem d pt)
    (hsame : ∀ a ∈ Radix.nodes (pteChild mem) d pt, ∀ x, InPage a x → mem' x = mem x) :
    Bare mem' d pt := by
  induction d generalizing pt with
  | zero =>
    intro i
    rw [pteAt_congr (hsame pt Radix.root_mem_nodes)]
    exact h i
  | succ d ih =>
    intro i
    rw [pteAt_congr (hsame pt Radix.root_mem_nodes)]
    intro hv
    exact ⟨(h i hv).1, ih (h i hv).2 fun a ha =>
      hsame a (Radix.nodes_child (pteChild_of_valid hv) ha)⟩

/-- A tree of tables only depends on its own pages. -/
theorem Spare.congr (h : Spare img s d pt)
    (hsame : ∀ a ∈ Radix.nodes (pteChild s.mem) d pt, SamePage s s' a)
    (howns : Owns img s' (Radix.nodes (pteChild s.mem) d pt)) :
    Spare img s' d pt ∧
      Radix.nodes (pteChild s'.mem) d pt = Radix.nodes (pteChild s.mem) d pt := by
  have hchild : ∀ a ∈ Radix.nodes (pteChild s.mem) d pt, pteChild s'.mem a = pteChild s.mem a :=
    fun a ha => pteChild_congr (hsame a ha)
  have hnodes := Radix.nodes_congr_self hchild
  refine ⟨⟨h.tree.congr_self hchild, h.bare.congr hsame, ?_, ?_⟩, hnodes⟩
  · rw [hnodes]
    exact h.page
  · rw [hnodes]
    exact howns

/-- The tables below the entries from `k` on. -/
def tablesFrom (mem : ℕ → UInt8) (d pt k : ℕ) : Set ℕ :=
  {a | ∃ i : Fin 512, k ≤ i ∧ ∃ c, pteChild mem pt i = some c ∧
    a ∈ Radix.nodes (pteChild mem) d c}

/-- What is left to be freed of a table when the loop of `freewalk` has reached entry `k`. -/
structure Remaining (img : KernelImage) (s : Vm) (d pt k : ℕ) : Prop where
  /-- The table itself and what is below it are in use. -/
  owns : Owns img s ({pt} ∪ tablesFrom s.mem d pt k)
  /-- The entries left are empty or point to trees. -/
  entry : ∀ i : Fin 512, k ≤ i → hasFlag (pteAt s.mem pt i) pteV = true →
    hasFlag (pteAt s.mem pt i) (pteR ||| pteW ||| pteX) = false ∧
    Spare img s d (pte2pa (pteAt s.mem pt i))
  /-- The table is not below itself. -/
  root : pt ∉ tablesFrom s.mem d pt k
  /-- The trees are disjoint. -/
  disjoint : ∀ i j : Fin 512, ∀ c e a, k ≤ i → k ≤ j → pteChild s.mem pt i = some c →
    pteChild s.mem pt j = some e → a ∈ Radix.nodes (pteChild s.mem) d c →
    a ∈ Radix.nodes (pteChild s.mem) d e → i = j

/-- The tables from one entry on are those below it and those from the next on. -/
theorem tablesFrom_eq {mem : ℕ → UInt8} (i : Fin 512) :
    tablesFrom mem d pt i = {a | ∃ c, pteChild mem pt i = some c ∧
      a ∈ Radix.nodes (pteChild mem) d c} ∪ tablesFrom mem d pt (i + 1) := by
  ext a
  constructor
  · rintro ⟨j, hj, hc⟩
    by_cases hij : j = i
    · exact .inl (hij ▸ hc)
    · have hne : (j : ℕ) ≠ i := fun h => hij (Fin.ext h)
      exact .inr ⟨j, by omega, hc⟩
  · rintro (hc | ⟨j, hj, hc⟩)
    · exact ⟨i, le_rfl, hc⟩
    · exact ⟨j, by omega, hc⟩

/-- No entries are left. -/
theorem tablesFrom_end {mem : ℕ → UInt8} : tablesFrom mem d pt 512 = ∅ := by
  ext a
  constructor
  · rintro ⟨i, hi, -⟩
    have := i.isLt
    omega
  · exact fun h => h.elim

/-- Going on to the next entry. -/
theorem Remaining.next {i : Fin 512} (h : Remaining img s d pt i) :
    Remaining img s d pt (i + 1) := by
  have hsub : tablesFrom s.mem d pt (i + 1) ⊆ tablesFrom s.mem d pt i := by
    rw [tablesFrom_eq i]
    exact Set.subset_union_right
  exact ⟨h.owns.mono (Set.union_subset_union_right _ hsub), fun j hj => h.entry j (by omega),
    fun hpt => h.root (hsub hpt), fun j k c e a hj hk => h.disjoint j k c e a (by omega) (by omega)⟩

/-- Clearing an entry of a table. -/
structure Clears (s s' : Vm) (pt : ℕ) (i : Fin 512) : Prop where
  /-- The free list stays. -/
  freelist : s'.freelist = s.freelist
  /-- The other entries stay. -/
  entry : ∀ j, j ≠ i → pteAt s'.mem pt j = pteAt s.mem pt j
  /-- The other pages stay. -/
  outside : ∀ x, ¬ InPage pt x → s'.mem x = s.mem x

/-- An entry is cleared. -/
theorem clears_put (s : Vm) (pt : ℕ) (i : Fin 512) :
    Clears s (s.setMem (Bytes.put s.mem (pteAddr pt i) 8 0)) pt i := by
  refine ⟨rfl, fun j hj => ?_, fun x hx => put_outside hx⟩
  rw [Vm.setMem, pteAt_put (by decide), if_neg hj]

/-- One turn of the loop of `freewalk` that frees the tree below an entry. -/
theorem Remaining.step {i : Fin 512} {c : ℕ} (h : Remaining img s d pt i)
    (hc : pteChild s.mem pt i = some c)
    (hm : Moves img s s' (Radix.nodes (pteChild s.mem) d c) ∅) (hclear : Clears s' s'' pt i) :
    Remaining img s'' d pt (i + 1) ∧ Moves img s s'' ({pt} ∪ tablesFrom s.mem d pt i)
      ({pt} ∪ tablesFrom s''.mem d pt (i + 1)) := by
  have hnext := h.next
  have hdisj : ∀ a ∈ {pt} ∪ tablesFrom s.mem d pt (i + 1),
      a ∉ Radix.nodes (pteChild s.mem) d c := by
    rintro a (rfl | ⟨j, hj, e, he, ha⟩) hac
    · exact h.root ⟨i, le_rfl, c, hc, hac⟩
    · have := h.disjoint i j c e a le_rfl (by omega) hc he hac ha
      rw [← this] at hj
      omega
  have hm1 := hm.union hnext.owns hdisj
  rw [Set.empty_union] at hm1
  have hm2 : Moves img s s'' (Radix.nodes (pteChild s.mem) d c ∪
      ({pt} ∪ tablesFrom s.mem d pt (i + 1))) ({pt} ∪ tablesFrom s.mem d pt (i + 1)) :=
    hm1.trans (Moves.change hm1.owns (.inl rfl) hclear.freelist hclear.outside)
  -- Neither the tree that is freed nor the entry that is cleared is looked at again.
  have hentry : ∀ j : Fin 512, i + 1 ≤ (j : ℕ) → pteAt s''.mem pt j = pteAt s.mem pt j := by
    intro j hj
    rw [hclear.entry j (by rintro rfl; omega)]
    exact pteAt_congr (hm.same hnext.owns hdisj (.inl rfl)) j
  have hchild : ∀ j : Fin 512, i + 1 ≤ (j : ℕ) → pteChild s''.mem pt j = pteChild s.mem pt j := by
    intro j hj
    rw [pteChild, pteChild, hentry j hj]
  have hsame : ∀ a ∈ tablesFrom s.mem d pt (i + 1), SamePage s s'' a := by
    intro a ha
    refine (hm.same hnext.owns hdisj (.inr ha)).trans fun x hx => hclear.outside x fun hx' => ?_
    have haeq := hx.eq hx' (hnext.owns.mod a (.inr ha)) (hnext.owns.mod pt (.inl rfl))
    rw [haeq] at ha
    exact hnext.root ha
  have hspare : ∀ j : Fin 512, i + 1 ≤ (j : ℕ) → ∀ e, pteChild s.mem pt j = some e →
      Spare img s'' d e ∧ Radix.nodes (pteChild s''.mem) d e =
        Radix.nodes (pteChild s.mem) d e := by
    intro j hj e he
    have hv : hasFlag (pteAt s.mem pt j) pteV = true := by
      by_contra hv
      rw [pteChild, if_neg hv] at he
      cases he
    have heq : pte2pa (pteAt s.mem pt j) = e :=
      Option.some.inj ((pteChild_of_valid hv).symm.trans he)
    have hspare := (hnext.entry j hj hv).2
    rw [heq] at hspare
    exact hspare.congr (fun a ha => hsame a ⟨j, hj, e, he, ha⟩)
      (hm2.owns.mono fun a ha => .inr ⟨j, hj, e, he, ha⟩)
  have htables : tablesFrom s''.mem d pt (i + 1) = tablesFrom s.mem d pt (i + 1) := by
    ext a
    constructor
    · rintro ⟨j, hj, e, he, ha⟩
      rw [hchild j hj] at he
      rw [(hspare j hj e he).2] at ha
      exact ⟨j, hj, e, he, ha⟩
    · rintro ⟨j, hj, e, he, ha⟩
      rw [← (hspare j hj e he).2] at ha
      exact ⟨j, hj, e, (hchild j hj).trans he, ha⟩
  refine ⟨⟨?_, ?_, ?_, ?_⟩, ?_⟩
  · rw [htables]
    exact hm2.owns
  · intro j hj hv
    rw [hentry j hj] at hv ⊢
    exact ⟨(hnext.entry j hj hv).1, (hspare j hj _ (pteChild_of_valid hv)).1⟩
  · rw [htables]
    exact hnext.root
  · intro j k e g a hj hk he hg hae hag
    rw [hchild j hj] at he
    rw [hchild k hk] at hg
    rw [(hspare j hj e he).2] at hae
    rw [(hspare k hk g hg).2] at hag
    exact hnext.disjoint j k e g a hj hk he hg hae hag
  · rw [htables]
    refine hm2.of_eq ?_ rfl
    have hhead : {a | ∃ c, pteChild s.mem pt i = some c ∧
        a ∈ Radix.nodes (pteChild s.mem) d c} = Radix.nodes (pteChild s.mem) d c := by
      ext a
      constructor
      · rintro ⟨e, he, ha⟩
        rwa [Option.some.inj (hc.symm.trans he)]
      · exact fun ha => ⟨c, hc, ha⟩
    rw [tablesFrom_eq i, hhead, Set.union_left_comm]

/-- The loop of `freewalk` over a table of a higher level. -/
theorem freewalkFrom_runs {below : ℕ → VmM Unit} {n : ℕ} (hn : n ≤ 512)
    (hbelow : ∀ (s : Vm) (c : ℕ), Spare img s d c → Runs E (below c) s fun _ s' =>
      Moves img s s' (Radix.nodes (pteChild s.mem) d c) ∅)
    (h : Remaining img s d pt (512 - n)) :
    Runs E (freewalkFrom below pt n) s fun _ s' =>
      Moves img s s' ({pt} ∪ tablesFrom s.mem d pt (512 - n)) {pt} := by
  induction n generalizing s with
  | zero =>
    rw [tablesFrom_end, Set.union_empty]
    exact .pure (Moves.refl (h.owns.mono Set.subset_union_left))
  | succ n ih =>
    obtain ⟨i, hi⟩ : ∃ i : Fin 512, (i : ℕ) = 512 - (n + 1) := ⟨⟨512 - (n + 1), by omega⟩, rfl⟩
    have hslot : pt + 8 * (511 - n) = pteAddr pt i := by
      unfold pteAddr
      omega
    have hnext : 512 - n = i + 1 := by omega
    rw [← hi] at h ⊢
    rw [hnext] at ih
    rw [freewalkFrom]
    rw [hslot]
    refine .gets_bind ?_
    rw [show Bytes.num s.mem (pteAddr pt i) 8 = pteAt s.mem pt i from rfl]
    by_cases hv : hasFlag (pteAt s.mem pt i) pteV = true
    · obtain ⟨hptr, hspare⟩ := h.entry i le_rfl hv
      rw [hv, hptr, if_pos (by decide)]
      refine .bind (hbelow s _ hspare) fun _ s1 hm => .modify_bind ?_
      obtain ⟨hrem, hmoves⟩ := h.step (pteChild_of_valid hv) hm (clears_put s1 pt i)
      generalize s1.setMem (Bytes.put s1.mem (pteAddr pt i) 8 0) = s2 at hrem hmoves ⊢
      exact (ih (by omega) hrem).mono fun _ s3 hm3 => hmoves.trans hm3
    · have hv' : hasFlag (pteAt s.mem pt i) pteV = false := by simpa using hv
      rw [hv', Bool.false_and, if_neg Bool.false_ne_true, if_neg Bool.false_ne_true]
      have hskip : tablesFrom s.mem d pt i = tablesFrom s.mem d pt (i + 1) := by
        rw [tablesFrom_eq i, Set.union_eq_right]
        rintro a ⟨c, hc, -⟩
        rw [pteChild, if_neg hv] at hc
        cases hc
      rw [hskip]
      exact ih (by omega) h.next

/-- The loop of `freewalk` over an empty table. -/
theorem freewalkFrom_bare {below : ℕ → VmM Unit} {n : ℕ} (hn : n ≤ 512) (hbare : Bare s.mem 0 pt) :
    freewalkFrom below pt n s = .ok () s := by
  induction n with
  | zero => rfl
  | succ n ih =>
    obtain ⟨i, hi⟩ : ∃ i : Fin 512, (i : ℕ) = 511 - n := ⟨⟨511 - n, by omega⟩, rfl⟩
    have hpte : Bytes.num s.mem (pt + 8 * (511 - n)) 8 = pteAt s.mem pt i := by
      rw [← hi, pteAt, pteAddr]
    rw [freewalkFrom, Seq.bind_apply, load_apply, Seq.ok_bind, hpte, hbare i, Bool.false_and,
      if_neg Bool.false_ne_true, if_neg Bool.false_ne_true]
    exact ih (by omega)

/-- `freewalk` gives back a bare tree of tables. -/
theorem freewalk_runs (h : Spare img s d pt) :
    Runs E (freewalk img (d + 1) pt) s fun _ s' =>
      Moves img s s' (Radix.nodes (pteChild s.mem) d pt) ∅ := by
  induction d generalizing s pt with
  | zero =>
    rw [freewalk, Radix.nodes_zero]
    refine .of_eq_bind (freewalkFrom_bare le_rfl h.bare) ?_
    exact kfree_runs (h.owns.mono (by rw [Radix.nodes_zero])) (h.page pt Radix.root_mem_nodes)
  | succ d ih =>
    have hnodes : Radix.nodes (pteChild s.mem) (d + 1) pt = {pt} ∪ tablesFrom s.mem d pt 0 := by
      ext a
      rw [Radix.mem_nodes_succ]
      constructor
      · rintro (rfl | ⟨i, c, hc, ha⟩)
        · exact .inl rfl
        · exact .inr ⟨i, Nat.zero_le _, c, hc, ha⟩
      · rintro (rfl | ⟨i, -, c, hc, ha⟩)
        · exact .inl rfl
        · exact .inr ⟨i, c, hc, ha⟩
    have hrem : Remaining img s d pt (512 - 512) := by
      refine ⟨by rw [← hnodes]; exact h.owns, fun i _ hv => ⟨(h.bare i hv).1, ?_⟩, ?_, ?_⟩
      · have hc := pteChild_of_valid hv
        exact ⟨h.tree.below hc, (h.bare i hv).2, fun a ha => h.page a (Radix.nodes_child hc ha),
          h.owns.mono fun a ha => Radix.nodes_child hc ha⟩
      · rintro ⟨i, -, c, hc, ha⟩
        exact h.tree.root_notMem hc ha
      · exact fun i j c e a _ _ hc he hac hae => h.tree.disjoint hc he hac hae
    rw [freewalk, hnodes]
    refine .bind (freewalkFrom_runs le_rfl (fun s c hc => ih hc) hrem) fun _ s1 hm => ?_
    exact (kfree_runs hm.owns (h.page pt Radix.root_mem_nodes)).mono fun _ s2 hm2 => hm.trans hm2

/-! ## Freeing an address space -/

/-- A page table that maps nothing is bare. -/
theorem Table.bare {mem : ℕ → UInt8} (ht : Table mem root)
    (hnone : ∀ va < 2 ^ 39, translate mem root va = none) : Bare mem 2 root := by
  intro i2 hv2
  have hroot : root ∈ Radix.nodes (pteChild mem) 1 root := Radix.root_mem_nodes
  refine ⟨ht.pointer root hroot i2 hv2, fun i1 hv1 => ?_⟩
  have hchild2 := pteChild_of_valid hv2
  have hmid : pte2pa (pteAt mem root i2) ∈ Radix.nodes (pteChild mem) 1 root :=
    Radix.nodes_child hchild2 Radix.root_mem_nodes
  refine ⟨ht.pointer _ hmid i1 hv1, fun i0 => ?_⟩
  have hchild1 := pteChild_of_valid hv1
  -- The address with these three indices.
  obtain ⟨va, hva, h2, h1, h0⟩ : ∃ va < 2 ^ 39, px 2 va = i2 ∧ px 1 va = i1 ∧ px 0 va = i0 := by
    have := i2.isLt
    have := i1.isLt
    have := i0.isLt
    refine ⟨i2 * 2 ^ 30 + i1 * 2 ^ 21 + i0 * 2 ^ 12, by omega, Fin.ext ?_, Fin.ext ?_, Fin.ext ?_⟩
    all_goals
      simp only [px]
      omega
  have hleaf : leafTable mem root va =
      some (pte2pa (pteAt mem (pte2pa (pteAt mem root i2)) i1)) := by
    rw [leafTable, path, path, path, Radix.descend_cons, h2, hchild2, Option.bind_some,
      Radix.descend_cons, h1, hchild1, Option.bind_some, Radix.descend_nil]
  have htr := hnone va hva
  rw [translate, hleaf, Option.bind_some, h0] at htr
  by_contra hv
  rw [if_pos (by simpa using hv)] at htr
  cases htr

/-- `uvmfree` gives back an address space all of whose pages lie below its size. -/
theorem uvmfree_runs {sz : ℕ} (hs : Space img s root) (hsz : sz ≤ trapframeVa)
    (hnone : ∀ va < 2 ^ 39, pgroundup sz ≤ va → translate s.mem root va = none) :
    Runs E (uvmfree img root sz) s fun _ s' => Moves img s s' (footprint s.mem root) ∅ := by
  have hmax := trapframeVa_lt_maxva
  have hup := pgroundup_eq (hsz.trans hmax.le)
  have htop := pgroundup_le hsz trapframeVa_mod hmax.le
  -- Once nothing is mapped, the address space is its tables.
  have hfree : ∀ s1, Reshapes img s s1 root (fun _ => none) ∅ ∅ →
      Runs E (freewalk img 3 root) s1 fun _ s' => Moves img s s' (footprint s.mem root) ∅ := by
    intro s1 h1
    have hpages : pagesOf (translate s1.mem root) = ∅ := by
      ext a
      constructor
      · rintro ⟨va, hva, e, he, -⟩
        rw [h1.map va (hva.trans trapframeVa_lt)] at he
        cases he
      · exact fun h => h.elim
    have hfoot : footprint s1.mem root = tables s1.mem root := by
      rw [footprint, hpages, Set.union_empty]
    have hspare : Spare img s1 2 root :=
      ⟨h1.space.table.tree, h1.space.table.bare h1.map, h1.space.tablePage, h1.space.ownsTables⟩
    refine (freewalk_runs hspare).mono fun _ s2 hm => ?_
    have hm1 := h1.moves
    rw [Set.union_empty, Set.union_empty, hfoot] at hm1
    exact hm1.trans hm
  rw [uvmfree]
  by_cases hpos : sz > 0
  · rw [if_pos hpos]
    have hn : 0 + pgroundup sz / pgsize * pgsize = pgroundup sz := by
      rw [Nat.zero_add, Nat.div_mul_cancel (Nat.dvd_of_mod_eq_zero hup.1)]
    rw [uvmunmap_eq true rfl (by omega)]
    refine .bind (unmapUserFrom_runs hs rfl (by omega)) fun _ s1 h1 => hfree s1 ?_
    refine h1.congr fun va hva => ?_
    rw [hn, cutRange]
    split
    · rfl
    · exact hnone va hva (by omega)
  · rw [if_neg hpos]
    refine hfree s ((Reshapes.refl hs).congr fun va hva => hnone va hva ?_)
    have hzero : sz = 0 := by omega
    rw [hzero]
    exact Nat.zero_le va

/-! ## The page table of a process -/

/-- What the kernel maps above the user part of the address space of a process. -/
def kernelMap (img : KernelImage) (trapframe va : ℕ) : Option ℕ :=
  if va / pgsize = trampolineVa / pgsize then some (pteFor img.trampoline (pteR ||| pteX))
  else if va / pgsize = trapframeVa / pgsize then some (pteFor trapframe (pteR ||| pteW))
  else none

/-- The address space of a process: user pages below its size, the trapframe and the
trampoline. -/
structure ProcSpace (img : KernelImage) (s : Vm) (root trapframe sz : ℕ) : Prop where
  /-- It is an address space. -/
  space : Space img s root
  /-- The size leaves room for the trapframe. -/
  sz_le : sz ≤ trapframeVa
  /-- The user pages lie below the size, rounded up. -/
  user : ∀ va, pgroundup sz ≤ va → va < trapframeVa → translate s.mem root va = none
  /-- Above, only the trapframe and the trampoline are mapped. -/
  kernel : ∀ va < 2 ^ 39, trapframeVa ≤ va → translate s.mem root va = kernelMap img trapframe va

/-- One page above the user part is unmapped. -/
theorem unmapKernel_runs (hs : Space img s root) (hva : va % pgsize = 0) (hge : trapframeVa ≤ va)
    (hend : va + pgsize ≤ maxva) :
    Runs E (uvmunmap img root va 1 false) s fun _ s' =>
      Reshapes img s s' root (unmapRange (translate s.mem root) va 1) ∅ ∅ := by
  rw [uvmunmap_eq false hva (by omega)]
  refine (unmapFrom_runs hs.table hs.ownsTables (by omega)).mono fun _ s1 h => ?_
  refine h.reshapes hs fun va' hva' => if_neg ?_
  have := trapframeVa_mod
  simp only [pgsize] at *
  omega

/-- One page above the user part is mapped. -/
theorem mapKernel_runs {pa perm : ℕ} (hs : Space img s root) (hva : va % pgsize = 0)
    (hge : trapframeVa ≤ va) (hend : va + pgsize ≤ maxva) (hperm : perm < 2 ^ 64)
    (hpa : pa < 2 ^ 64) (hnone : translate s.mem root va = none) :
    Runs E (mappages root va pgsize pa perm) s fun res s' =>
      (res = 0 ∧ Reshapes img s s' root
        (replaceEntry (translate s.mem root) va (some (pteFor pa perm))) ∅ ∅) ∨
      (res = -1 ∧ Reshapes img s s' root (translate s.mem root) ∅ ∅) := by
  refine (mapOne_runs hs.table hs.ownsTables hva hend hperm hpa hnone).mono ?_
  rintro res s1 (⟨rfl, h⟩ | ⟨rfl, h⟩)
  · refine .inl ⟨rfl, h.reshapes hs fun va' hva' => if_neg ?_⟩
    have := trapframeVa_mod
    simp only [pgsize] at *
    omega
  · exact .inr ⟨rfl, h.reshapes hs fun _ _ => rfl⟩

/-- What a change within an address space does to its pages. -/
theorem Reshapes.footprint_moves {f : ℕ → Option ℕ} (h : Reshapes img s s' root f ∅ ∅) :
    Moves img s s' (footprint s.mem root) (footprint s'.mem root) :=
  h.moves.of_eq (Set.union_empty _) (Set.union_empty _)

/-- `proc_freepagetable` gives back the address space of a process. -/
theorem procFreepagetable_runs {trapframe sz : ℕ} (h : ProcSpace img s root trapframe sz) :
    Runs E (procFreepagetable img root sz) s fun _ s' =>
      Moves img s s' (footprint s.mem root) ∅ := by
  refine .bind (unmapKernel_runs h.space (by decide) (by decide) (by decide))
    fun _ s1 h1 => ?_
  refine .bind (unmapKernel_runs h1.space (by decide) le_rfl (by decide)) fun _ s2 h2 => ?_
  refine (uvmfree_runs h2.space h.sz_le fun va hva hge => ?_).mono fun _ s3 hm =>
    (h1.footprint_moves.trans h2.footprint_moves).trans hm
  rw [h2.map va hva, unmapRange]
  split
  · rfl
  · rename_i hframe
    rw [h1.map va hva, unmapRange]
    split
    · rfl
    · rename_i htramp
      by_cases hlow : va < trapframeVa
      · exact h.user va hge hlow
      · rw [h.kernel va hva (by omega), kernelMap, if_neg (by omega), if_neg (by omega)]

/-- `uvmcreate` makes an address space that maps nothing. -/
theorem uvmcreate_runs (ho : Owns img s ∅) :
    Runs E uvmcreate s fun r s' =>
      (r = 0 ∧ Moves img s s' ∅ ∅) ∨
      (r ≠ 0 ∧ Space img s' r ∧ Moves img s s' ∅ (footprint s'.mem r) ∧
        ∀ va, translate s'.mem r va = none) := by
  refine .bind (kalloc_runs ho) ?_
  rintro r s1 (⟨rfl, hm, -⟩ | ⟨hr, -, hm⟩)
  · rw [if_pos rfl]
    exact .pure (.inl ⟨rfl, hm⟩)
  · rw [if_neg hr.pos]
    refine .modify_bind (.pure (.inr ⟨hr.pos, ?_⟩))
    have hfill : Moves img s1 (s1.setMem (Bytes.blit s1.mem r pgsize fun _ => 0)) {r} {r} :=
      Moves.blit hm.owns rfl 0 pgsize (by decide) _
    have hzero : ∀ x, InPage r x →
        (s1.setMem (Bytes.blit s1.mem r pgsize fun _ => 0)).mem x = 0 :=
      fun x hx => Bytes.blit_inside s1.mem (fun _ => 0) hx.1 hx.2
    generalize s1.setMem (Bytes.blit s1.mem r pgsize fun _ => 0) = s2 at hfill hzero ⊢
    obtain ⟨ht, htab, hnone⟩ := empty_table hzero hr.mod hr.pos
    have hpages : pagesOf (translate s2.mem r) = ∅ := by
      ext a
      constructor
      · rintro ⟨va, -, e, he, -⟩
        rw [hnone] at he
        cases he
      · exact fun h => h.elim
    have hfoot : footprint s2.mem r = {r} := by rw [footprint, htab, hpages, Set.union_empty]
    refine ⟨⟨ht, ?_, ?_, ⟨?_, ?_⟩, ?_⟩, ?_, hnone⟩
    · rw [hfoot]
      exact hfill.owns
    · rw [htab]
      rintro a rfl
      exact hr
    · intro va _ e he
      rw [hnone] at he
      cases he
    · intro va _ va' _ e e' he
      rw [hnone] at he
      cases he
    · rw [hpages]
      exact fun a ha => ha.elim
    · rw [hfoot]
      exact hm.trans hfill

/-- `proc_pagetable` makes the address space of a process without user pages. -/
theorem procPagetable_runs {trapframe : ℕ} (ho : Owns img s ∅) (htf : IsPage img trapframe) :
    Runs E (procPagetable img trapframe) s fun r s' =>
      (r = 0 ∧ Moves img s s' ∅ ∅) ∨
      (r ≠ 0 ∧ ProcSpace img s' r trapframe 0 ∧ Moves img s s' ∅ (footprint s'.mem r)) := by
  have htramp : img.trampoline < 2 ^ 64 :=
    (img.trampoline_lt.trans_le (htf.kend_le.trans htf.lt_physstop.le)).trans (by decide)
  refine .bind (uvmcreate_runs ho) ?_
  rintro r s1 (⟨rfl, hm⟩ | ⟨hr, hs1, hm, hnone⟩)
  · rw [if_pos rfl]
    exact .pure (.inl ⟨rfl, hm⟩)
  · rw [if_neg hr]
    -- Giving up: nothing is mapped any more.
    have hgiveup : ∀ s2, Reshapes img s1 s2 r (fun _ => none) ∅ ∅ →
        Runs E (uvmfree img r 0 >>= fun _ => pure 0) s2 fun r s' =>
          (r = 0 ∧ Moves img s s' ∅ ∅) ∨
          (r ≠ 0 ∧ ProcSpace img s' r trapframe 0 ∧ Moves img s s' ∅ (footprint s'.mem r)) := by
      intro s2 h2
      refine .bind (uvmfree_runs h2.space (Nat.zero_le _) fun va hva _ => h2.map va hva)
        fun _ s3 hm3 => .pure (.inl ⟨rfl, ?_⟩)
      exact (hm.trans h2.footprint_moves).trans hm3
    refine .bind (mapKernel_runs hs1 (by decide) (by decide) (by decide) (by decide) htramp
      (hnone _)) ?_
    rintro res s2 (⟨rfl, h2⟩ | ⟨rfl, h2⟩)
    · rw [if_neg (by decide)]
      have hnone2 : translate s2.mem r trapframeVa = none := by
        rw [h2.map _ trapframeVa_lt, replaceEntry, if_neg (by decide), hnone]
      refine .bind (mapKernel_runs h2.space (by decide) le_rfl (by decide) (by decide)
        htf.lt hnone2) ?_
      rintro res s3 (⟨rfl, h3⟩ | ⟨rfl, h3⟩)
      · rw [if_neg (by decide)]
        refine .pure (.inr ⟨hr, ⟨h3.space, Nat.zero_le _, ?_, ?_⟩,
          (hm.trans h2.footprint_moves).trans h3.footprint_moves⟩)
        · intro va _ hlt
          have hdiv : va / pgsize < trapframeVa / pgsize := by
            have := trapframeVa_mod
            simp only [pgsize] at *
            omega
          have htop : trapframeVa / pgsize < trampolineVa / pgsize := by decide
          rw [h3.map va (hlt.trans trapframeVa_lt), replaceEntry, if_neg (by omega),
            h2.map va (hlt.trans trapframeVa_lt), replaceEntry, if_neg (by omega), hnone]
        · intro va hva _
          rw [h3.map va hva, replaceEntry, h2.map va hva, replaceEntry, hnone, kernelMap]
          split
          · rename_i hframe
            rw [if_neg]
            rw [hframe]
            decide
          · rfl
      · rw [if_pos (by decide)]
        refine .bind (unmapKernel_runs h3.space (by decide) (by decide) (by decide))
          fun _ s4 h4 => hgiveup s4 ?_
        refine (h2.trans (h3.trans (h4.congr fun va hva => ?_) fun _ _ _ he _ => he)
          fun va _ e _ hg => by cases hg)
        rw [unmapRange]
        split
        · rfl
        · rw [h3.map va hva, h2.map va hva, replaceEntry, if_neg (by omega), hnone]
    · rw [if_pos (by decide)]
      exact hgiveup s2 (h2.congr fun va _ => hnone va)

/-! ## A small process -/

/-- Zeroed memory with twelve free pages. -/
def bootVm : Vm where
  mem := fun _ => 0
  freelist := (List.range 12).map fun k => kernbase + (k + 2) * pgsize
  deny := fun _ => false
  calls := 0

/-- The trapframe of the first process. -/
def bootTrapframe : ℕ := kernbase + pgsize

/-- The page table of the first process. -/
def bootRoot : ℕ := kernbase + 2 * pgsize

theorem bootTrapframe_page : IsPage tinyImage bootTrapframe := ⟨by decide, by decide, by decide⟩

theorem bootVm_owns : Owns tinyImage bootVm ∅ := by
  refine ⟨by decide, fun a ha => ?_, fun a ha => ha.elim, fun a ha => ha.elim⟩
  rw [bootVm] at ha
  obtain ⟨k, hk, rfl⟩ := List.mem_map.mp ha
  have hlt := List.mem_range.mp hk
  have hkend : tinyImage.kend = kernbase + pgsize := rfl
  refine ⟨?_, ?_, ?_⟩
  · rw [Nat.add_mul_mod_self_right]
    rfl
  · rw [hkend, Nat.add_mul]
    omega
  · unfold physstop pgsize
    omega

/-- The first process gets a page table; its size may be anything within a page. -/
theorem bootVm_proc {sz : ℕ} (hsz : sz ≤ pgsize) :
    ∃ s, procPagetable tinyImage bootTrapframe bootVm = .ok bootRoot s ∧
      ProcSpace tinyImage s bootRoot bootTrapframe sz := by
  have hruns : Runs (fun _ => False) (procPagetable tinyImage bootTrapframe) bootVm _ :=
    procPagetable_runs bootVm_owns bootTrapframe_page
  obtain ⟨r, s, heq, hpost⟩ := hruns.returns
  have hr : resultOf 0 (procPagetable tinyImage bootTrapframe bootVm) = bootRoot := rfl
  rw [heq] at hr
  rw [resultOf] at hr
  subst hr
  obtain ⟨-, hproc, -⟩ := hpost.resolve_left fun h => absurd h.1 (by decide)
  have htop : pgsize ≤ trapframeVa := by decide
  exact ⟨s, heq, hproc.space, hsz.trans htop, fun va _ hva => hproc.user va (Nat.zero_le _) hva,
    hproc.kernel⟩

end RiscvKernel
