import RiscvKernel.Vm.Table

/-!
# User address spaces

The user part of an address space lies below the trapframe page. Its leaf entries map
distinct physical pages that nobody else holds, so the address space owns its page tables
and its user pages. The functions of `vm.c` that grow, shrink, fill and free an address
space move pages between it and the allocator, and keep every other page as it is.
-/

namespace RiscvKernel

open Threads
open Threads.Seq (Runs)

variable {img : KernelImage} {s s' s'' : Vm} {root va : ℕ} {E : String → Prop}
  {f g : ℕ → Option ℕ} {A B F : Set ℕ}

/-- The physical pages that a map gives to user addresses. -/
def pagesOf (f : ℕ → Option ℕ) : Set ℕ :=
  {a | ∃ va < trapframeVa, ∃ e, f va = some e ∧ pte2pa e = a}

/-- The pages of an address space: its page tables and its user pages. -/
def footprint (mem : ℕ → UInt8) (root : ℕ) : Set ℕ :=
  tables mem root ∪ pagesOf (translate mem root)

/-- A map that gives distinct pages of the allocator to user addresses. -/
structure UserMap (img : KernelImage) (f : ℕ → Option ℕ) : Prop where
  /-- User pages are pages. -/
  page : ∀ va < trapframeVa, ∀ e, f va = some e → IsPage img (pte2pa e)
  /-- No page is mapped twice. -/
  inj : ∀ va < trapframeVa, ∀ va' < trapframeVa, ∀ e e', f va = some e → f va' = some e' →
    pte2pa e = pte2pa e' → va / pgsize = va' / pgsize

/-- A page table with user pages of its own. -/
structure Space (img : KernelImage) (s : Vm) (root : ℕ) : Prop where
  /-- The page table is well-formed. -/
  table : Table s.mem root
  /-- The address space owns its pages. -/
  owns : Owns img s (footprint s.mem root)
  /-- The tables are pages of the allocator. -/
  tablePage : ∀ a ∈ tables s.mem root, IsPage img a
  /-- So are the user pages, and none is mapped twice. -/
  user : UserMap img (translate s.mem root)
  /-- No user page is a table. -/
  notTable : ∀ a ∈ pagesOf (translate s.mem root), a ∉ tables s.mem root

theorem trapframeVa_lt : trapframeVa < 2 ^ 39 := by decide

theorem trapframeVa_lt_maxva : trapframeVa < maxva := by decide

/-- Two maps give the same physical pages to user addresses. -/
def SamePages (f g : ℕ → Option ℕ) : Prop :=
  ∀ va < trapframeVa, (f va).map pte2pa = (g va).map pte2pa

theorem SamePages.of_eq (h : ∀ va < trapframeVa, f va = g va) : SamePages f g :=
  fun va hva => by rw [h va hva]

theorem SamePages.symm (h : SamePages f g) : SamePages g f := fun va hva => (h va hva).symm

theorem SamePages.some (h : SamePages f g) {e : ℕ} (hva : va < trapframeVa) (he : f va = some e) :
    ∃ e', g va = some e' ∧ pte2pa e' = pte2pa e := by
  have hmap := h va hva
  rw [he, Option.map_some] at hmap
  exact Option.map_eq_some_iff.mp hmap.symm

theorem SamePages.pagesOf (h : SamePages f g) : pagesOf f = pagesOf g := by
  ext a
  constructor
  · rintro ⟨va, hva, e, he, rfl⟩
    obtain ⟨e', he', hpa⟩ := h.some hva he
    exact ⟨va, hva, e', he', hpa⟩
  · rintro ⟨va, hva, e, he, rfl⟩
    obtain ⟨e', he', hpa⟩ := h.symm.some hva he
    exact ⟨va, hva, e', he', hpa⟩

theorem UserMap.of_same (h : UserMap img f) (hfg : SamePages f g) : UserMap img g := by
  refine ⟨fun va hva e he => ?_, fun va hva va' hva' e1 e2 he1 he2 hpa => ?_⟩
  · obtain ⟨e', he', hpa⟩ := hfg.symm.some hva he
    rw [← hpa]
    exact h.page va hva e' he'
  · obtain ⟨e1', he1', hpa1⟩ := hfg.symm.some hva he1
    obtain ⟨e2', he2', hpa2⟩ := hfg.symm.some hva' he2
    exact h.inj va hva va' hva' e1' e2' he1' he2' (by rw [hpa1, hpa2, hpa])

theorem pagesOf_congr (h : ∀ va < trapframeVa, f va = g va) : pagesOf f = pagesOf g :=
  (SamePages.of_eq h).pagesOf

theorem UserMap.congr (h : UserMap img f) (hfg : ∀ va < trapframeVa, f va = g va) :
    UserMap img g := h.of_same (SamePages.of_eq hfg)

theorem Space.root_ne (h : Space img s root) : root ≠ 0 :=
  h.table.nonzero root Radix.root_mem_nodes

/-- The page tables are owned. -/
theorem Space.ownsTables (h : Space img s root) : Owns img s (tables s.mem root) :=
  h.owns.mono Set.subset_union_left

/-- The user pages are owned. -/
theorem Space.ownsPages (h : Space img s root) : Owns img s (pagesOf (translate s.mem root)) :=
  h.owns.mono Set.subset_union_right

/-- A table that turns into one for the map `f`, whose pages are held beside it. -/
theorem Space.of_remaps (h : Remaps img s s' root f)
    (htable : ∀ a ∈ tables s.mem root, IsPage img a) (hF : Owns img s F)
    (hdisj : ∀ a ∈ F, a ∉ tables s.mem root) (hsub : pagesOf f ⊆ F) (huser : UserMap img f)
    (ho : Owns img s (tables s.mem root)) :
    Space img s' root ∧ Moves img s s' (tables s.mem root ∪ F) (tables s'.mem root ∪ F) ∧
      pagesOf (translate s'.mem root) = pagesOf f ∧ ∀ a ∈ F, SamePage s s' a := by
  have hmap : ∀ va < trapframeVa, f va = translate s'.mem root va :=
    fun va hva => (h.map va (lt_trans hva trapframeVa_lt)).symm
  have hpages := pagesOf_congr hmap
  have hmoves := h.moves.union hF hdisj
  refine ⟨⟨h.table, ?_, ?_, huser.congr hmap, ?_⟩, hmoves, hpages.symm, fun a ha => ?_⟩
  · refine hmoves.owns.mono (Set.union_subset_union_right _ ?_)
    rw [← hpages]
    exact hsub
  · intro a ha
    exact ((h.moves.total a).mp (.inl ha)).elim (htable a) (ho.page a)
  · rw [← hpages]
    intro a ha hat
    exact ((h.moves.total a).mp (.inl hat)).elim (hdisj a (hsub ha)) (hF.inUse a (hsub ha))
  · exact h.moves.same hF hdisj ha

/-! ## Framing -/

/-- An address space is untouched by a program that owns none of its pages. -/
theorem Space.frame (h : Space img s root) (hm : Moves img s s' A B)
    (hdisj : ∀ a ∈ footprint s.mem root, a ∉ A) :
    Space img s' root ∧ (∀ va, translate s'.mem root va = translate s.mem root va) ∧
      tables s'.mem root = tables s.mem root ∧ footprint s'.mem root = footprint s.mem root ∧
      ∀ a ∈ footprint s.mem root, SamePage s s' a := by
  obtain ⟨ht, htab, htr⟩ := Remaps.of_moves h.table h.ownsTables hm fun a ha =>
    hdisj a (.inl ha)
  have hpages : pagesOf (translate s'.mem root) = pagesOf (translate s.mem root) :=
    pagesOf_congr fun va _ => htr va
  have hfoot : footprint s'.mem root = footprint s.mem root := by
    rw [footprint, footprint, htab, hpages]
  refine ⟨⟨ht, ?_, ?_, h.user.congr fun va _ => (htr va).symm, ?_⟩, htr, htab, hfoot,
    fun a ha => hm.same h.owns hdisj ha⟩
  · rw [hfoot]
    exact ((hm.union h.owns hdisj).owns).mono Set.subset_union_right
  · rw [htab]
    exact h.tablePage
  · rw [hpages, htab]
    exact h.notTable

/-! ## Adding and removing one page -/

/-- The address space now has the map `f`; of the pages `A` beside it, `B` are left. The user
pages that it keeps hold the same bytes. -/
structure Reshapes (img : KernelImage) (s s' : Vm) (root : ℕ) (f : ℕ → Option ℕ) (A B : Set ℕ) :
    Prop where
  /-- It is an address space. -/
  space : Space img s' root
  /-- Pages are conserved. -/
  moves : Moves img s s' (footprint s.mem root ∪ A) (footprint s'.mem root ∪ B)
  /-- No table is given back. -/
  sub : tables s.mem root ⊆ tables s'.mem root
  /-- What is left beside it is not part of it. -/
  apart : ∀ a ∈ footprint s'.mem root, a ∉ B
  /-- The new map. -/
  map : ∀ va < 2 ^ 39, translate s'.mem root va = f va
  /-- Pages that stay mapped are not written to. -/
  data : ∀ va < trapframeVa, ∀ e, translate s.mem root va = some e → f va = some e →
    SamePage s s' (pte2pa e)

theorem SamePage.trans {a : ℕ} (h : SamePage s s' a) (h' : SamePage s' s'' a) : SamePage s s'' a :=
  fun x hx => (h' x hx).trans (h x hx)

theorem Reshapes.congr (h : Reshapes img s s' root f A B) (hfg : ∀ va < 2 ^ 39, f va = g va) :
    Reshapes img s s' root g A B :=
  ⟨h.space, h.moves, h.sub, h.apart, fun va hva => (h.map va hva).trans (hfg va hva),
    fun va hva e he hg => h.data va hva e he ((hfg va (lt_trans hva trapframeVa_lt)).trans hg)⟩

theorem Reshapes.trans {C : Set ℕ} (h : Reshapes img s s' root f A B)
    (h' : Reshapes img s' s'' root g B C)
    (hkeep : ∀ va < trapframeVa, ∀ e, translate s.mem root va = some e → g va = some e →
      f va = some e) : Reshapes img s s'' root g A C := by
  refine ⟨h'.space, h.moves.trans h'.moves, h.sub.trans h'.sub, h'.apart, h'.map,
    fun va hva e he hg => ?_⟩
  have hf := hkeep va hva e he hg
  have hmid : translate s'.mem root va = some e := (h.map va (lt_trans hva trapframeVa_lt)).trans hf
  exact (h.data va hva e he hf).trans (h'.data va hva e hmid hg)

/-- The pages of a map with one more user page. -/
theorem pagesOf_replace_some {e : ℕ} (hva : va < trapframeVa)
    (hf : ∀ va', va' / pgsize = va / pgsize → f va' = none) :
    pagesOf (replaceEntry f va (some e)) = insert (pte2pa e) (pagesOf f) := by
  ext a
  constructor
  · rintro ⟨va', hva', e', he', hpa⟩
    unfold replaceEntry at he'
    split at he'
    · left
      rw [← hpa, Option.some.inj he']
    · exact .inr ⟨va', hva', e', he', hpa⟩
  · rintro (rfl | ⟨va', hva', e', he', hpa⟩)
    · exact ⟨va, hva, e, if_pos rfl, rfl⟩
    · refine ⟨va', hva', e', ?_, hpa⟩
      rw [replaceEntry, if_neg, he']
      intro hpage
      rw [hf va' hpage] at he'
      cases he'

/-- A map with one more user page. -/
theorem UserMap.replace_some {e : ℕ} (h : UserMap img f) (he : IsPage img (pte2pa e))
    (hnew : pte2pa e ∉ pagesOf f) : UserMap img (replaceEntry f va (some e)) := by
  constructor
  · intro va' hva' e' he'
    unfold replaceEntry at he'
    split at he'
    · rw [← Option.some.inj he']
      exact he
    · exact h.page va' hva' e' he'
  · intro va1 hva1 va2 hva2 e1 e2 he1 he2 hpa
    unfold replaceEntry at he1 he2
    split at he1 <;> split at he2
    · omega
    · rw [← Option.some.inj he1] at hpa
      exact absurd ⟨va2, hva2, e2, he2, hpa.symm⟩ hnew
    · rw [← Option.some.inj he2] at hpa
      exact absurd ⟨va1, hva1, e1, he1, hpa⟩ hnew
    · exact h.inj va1 hva1 va2 hva2 e1 e2 he1 he2 hpa

/-- `mappages` of one page. -/
theorem mapOne_runs {pa perm : ℕ} (ht : Table s.mem root) (ho : Owns img s (tables s.mem root))
    (hva : va % pgsize = 0) (hend : va + pgsize ≤ maxva) (hperm : perm < 2 ^ 64)
    (hpa : pa < 2 ^ 64) (hnone : translate s.mem root va = none) :
    Runs E (mappages root va pgsize pa perm) s fun res s' =>
      (res = 0 ∧ Remaps img s s' root
        (replaceEntry (translate s.mem root) va (some (pteFor pa perm)))) ∨
      (res = -1 ∧ Remaps img s s' root (translate s.mem root)) := by
  have hone : pgsize / pgsize = 1 := by decide
  refine (mappages_runs ht ho hva (by decide) (by decide) hend hperm hpa ?_).mono ?_
  · intro k hk
    rw [hone, Nat.lt_one_iff] at hk
    rw [hk, Nat.zero_mul, Nat.add_zero]
    exact hnone
  · rintro res s1 (⟨rfl, h⟩ | ⟨rfl, m, hm, h⟩)
    · refine .inl ⟨rfl, h.congr fun va' _ => ?_⟩
      unfold mapRange replaceEntry
      rw [hone]
      by_cases hsame : va' / pgsize = va / pgsize
      · rw [if_pos hsame, if_pos (by omega), hsame, Nat.sub_self, Nat.zero_mul, Nat.add_zero,
          Nat.mod_eq_of_lt hpa]
      · rw [if_neg hsame, if_neg (by omega)]
    · exact .inr ⟨rfl, h.congr fun va' _ => by rw [mapRange, if_neg (by omega)]⟩

/-- `mappages` of one page that the process holds beside its address space. -/
theorem mapUser_runs {r perm : ℕ} (hs : Space img s root) (hva : va % pgsize = 0)
    (hlt : va < trapframeVa) (hnone : translate s.mem root va = none) (hr : IsPage img r)
    (hown : Owns img s {r}) (hnew : r ∉ footprint s.mem root) (hperm : perm < 2 ^ 10) :
    Runs E (mappages root va pgsize r perm) s fun res s' =>
      (res = 0 ∧ SamePage s s' r ∧ Reshapes img s s' root
        (replaceEntry (translate s.mem root) va (some (pteFor r perm))) {r} ∅) ∨
      (res = -1 ∧ Reshapes img s s' root (translate s.mem root) {r} {r}) := by
  have hend : va + pgsize ≤ maxva := by
    have : trapframeVa = maxva - 2 * pgsize := by decide
    have : 2 * pgsize < maxva := by decide
    omega
  have hpage : ∀ va', va' / pgsize = va / pgsize → translate s.mem root va' = none :=
    fun va' h => (translate_congr_va h).trans hnone
  have hF : Owns img s (pagesOf (translate s.mem root) ∪ {r}) := hs.ownsPages.union hown
  have hdisj : ∀ a ∈ pagesOf (translate s.mem root) ∪ {r}, a ∉ tables s.mem root := by
    rintro a (ha | rfl)
    · exact hs.notTable a ha
    · exact fun h => hnew (.inl h)
  have hfoot : tables s.mem root ∪ (pagesOf (translate s.mem root) ∪ {r}) =
      footprint s.mem root ∪ {r} := (Set.union_assoc _ _ _).symm
  obtain ⟨hpa, -⟩ := pteFor_spec hr.lt hr.mod hperm
  refine (mapOne_runs hs.table hs.ownsTables hva hend (lt_trans hperm (by decide))
    hr.lt hnone).mono ?_
  rintro res s1 (⟨rfl, h⟩ | ⟨rfl, h⟩)
  · have hpages := pagesOf_replace_some (e := pteFor r perm) hlt hpage
    rw [hpa] at hpages
    obtain ⟨hspace, hmoves, hpages', hdata⟩ := Space.of_remaps h hs.tablePage hF hdisj
      (by rw [hpages, Set.union_singleton])
      (hs.user.replace_some (by rw [hpa]; exact hr) (by rw [hpa]; exact fun h => hnew (.inr h)))
      hs.ownsTables
    refine .inl ⟨rfl, hdata r (.inr rfl), hspace, hmoves.of_eq hfoot ?_, h.sub,
      fun a _ => Set.notMem_empty a, h.map, fun va' hva' e he _ => ?_⟩
    · rw [footprint, hpages', hpages, Set.union_empty, Set.union_singleton]
    · exact hdata _ (.inl ⟨va', hva', e, he, rfl⟩)
  · obtain ⟨hspace, hmoves, hpages', hdata⟩ := Space.of_remaps h hs.tablePage hF hdisj
      Set.subset_union_left hs.user hs.ownsTables
    refine .inr ⟨rfl, hspace, hmoves.of_eq hfoot ?_, h.sub, ?_, h.map, fun va' hva' e he _ => ?_⟩
    · rw [footprint, hpages', Set.union_assoc]
    · rintro a ha rfl
      rw [footprint, hpages'] at ha
      refine ha.elim (fun hat => ?_) fun hap => hnew (.inr hap)
      exact ((h.moves.total a).mp (.inl hat)).elim (fun h => hnew (.inl h))
        (hown.inUse a rfl)
    · exact hdata _ (.inl ⟨va', hva', e, he, rfl⟩)

/-- A change of the map that keeps the user pages. -/
theorem Remaps.reflags (h : Remaps img s s' root f) (hs : Space img s root)
    (hlow : SamePages f (translate s.mem root)) : Reshapes img s s' root f ∅ ∅ := by
  obtain ⟨hspace, hmoves, hpages, hdata⟩ := Space.of_remaps h hs.tablePage hs.ownsPages hs.notTable
    hlow.pagesOf.subset (hs.user.of_same hlow.symm) hs.ownsTables
  refine ⟨hspace, hmoves.of_eq (Set.union_empty _).symm ?_, h.sub,
    fun a _ => Set.notMem_empty a, h.map,
    fun va hva e he _ => hdata _ ⟨va, hva, e, he, rfl⟩⟩
  rw [Set.union_empty, footprint, hpages, hlow.pagesOf]

/-- A change of the map above the user part. -/
theorem Remaps.reshapes (h : Remaps img s s' root f) (hs : Space img s root)
    (hlow : ∀ va < trapframeVa, f va = translate s.mem root va) :
    Reshapes img s s' root f ∅ ∅ := h.reflags hs (SamePages.of_eq hlow)

/-- The pages of a map without one user page. -/
theorem pagesOf_replace_none {e : ℕ} (huser : UserMap img f) (hva : va < trapframeVa)
    (he : f va = some e) (hpage : ∀ va', va' / pgsize = va / pgsize → f va' = f va) :
    pagesOf (replaceEntry f va none) = pagesOf f \ {pte2pa e} := by
  ext a
  constructor
  · rintro ⟨va', hva', e', he', hpa⟩
    unfold replaceEntry at he'
    split at he'
    · cases he'
    · rename_i hne
      refine ⟨⟨va', hva', e', he', hpa⟩, fun h => hne ?_⟩
      exact huser.inj va' hva' va hva e' e he' he (hpa.trans h)
  · rintro ⟨⟨va', hva', e', he', hpa⟩, hne⟩
    refine ⟨va', hva', e', ?_, hpa⟩
    rw [replaceEntry, if_neg, he']
    intro h
    rw [hpage va' h, he] at he'
    rw [← Option.some.inj he'] at hpa
    exact hne hpa.symm

/-- A page is unmapped. -/
theorem UserMap.replace_none (h : UserMap img f) : UserMap img (replaceEntry f va none) := by
  have hold : ∀ va' e', replaceEntry f va none va' = some e' → f va' = some e' := by
    intro va' e' he'
    unfold replaceEntry at he'
    split at he'
    · cases he'
    · exact he'
  exact ⟨fun va' hva' e' he' => h.page va' hva' e' (hold va' e' he'),
    fun va1 h1 va2 h2 e1 e2 he1 he2 => h.inj va1 h1 va2 h2 e1 e2 (hold _ _ he1) (hold _ _ he2)⟩

theorem Reshapes.refl (hs : Space img s root) : Reshapes img s s root (translate s.mem root) ∅ ∅ :=
  ⟨hs, Moves.refl (by rw [Set.union_empty]; exact hs.owns), subset_rfl,
    fun a _ => Set.notMem_empty a,
    fun _ _ => rfl, fun _ _ _ _ _ _ _ => rfl⟩

/-- One turn of `uvmunmap` that frees the user page. -/
theorem unmapUser_runs (hs : Space img s root) (hlt : va < trapframeVa) :
    Runs E (unmapPage img root va true) s fun _ s' =>
      Reshapes img s s' root (replaceEntry (translate s.mem root) va none) ∅ ∅ := by
  have hva39 : va < 2 ^ 39 := lt_trans hlt trapframeVa_lt
  have hkeep : translate s.mem root va = none →
      Reshapes img s s root (replaceEntry (translate s.mem root) va none) ∅ ∅ := fun hnone =>
    (Reshapes.refl hs).congr fun va' _ => (replaceEntry_none (fun va'' h => by
      rw [translate_congr_va h, hnone]) va').symm
  refine .of_eq_bind (walk_false s (lt_trans hlt trapframeVa_lt_maxva)) ?_
  rcases pteSlot_cases hs.table va with ⟨hslot, hnone⟩ | ⟨pt, hpt, hslot, hne⟩
  · rw [if_pos hslot]
    exact .pure (hkeep hnone)
  · rw [hslot, if_neg hne]
    refine .gets_bind ?_
    by_cases hv : hasFlag (Bytes.num s.mem (pteAddr pt (px 0 va)) 8) pteV = false
    · rw [if_pos hv]
      refine .pure (hkeep ?_)
      rw [translate_of_slot hpt, hv, if_neg Bool.false_ne_true]
    · rw [if_neg hv]
      rw [if_pos rfl]
      -- The page is free before its entry is cleared, so in between it is owned by nobody.
      have hentry : translate s.mem root va =
          some (Bytes.num s.mem (pteAddr pt (px 0 va)) 8) := by
        rw [translate_of_slot hpt, if_pos (by simpa using hv)]
      generalize Bytes.num s.mem (pteAddr pt (px 0 va)) 8 = e at hentry ⊢
      have hpage := hs.user.page va hlt e hentry
      have hmem : pte2pa e ∈ pagesOf (translate s.mem root) := ⟨va, hlt, e, hentry, rfl⟩
      have hsingle : Owns img s {pte2pa e} := hs.ownsPages.mono (by rintro a rfl; exact hmem)
      refine .bind (kfree_runs hsingle hpage) fun _ s1 hm => .modify ?_
      have htabdisj : ∀ a ∈ tables s.mem root, a ∉ ({pte2pa e} : Set ℕ) := by
        rintro a ha rfl
        exact hs.notTable _ hmem ha
      obtain ⟨ht1, htab1, htr1⟩ := Remaps.of_moves hs.table hs.ownsTables hm htabdisj
      have hleaf1 : leafTable s1.mem root va = some pt := by
        rw [leafTable_congr fun a ha => hm.same hs.ownsTables htabdisj ha]
        exact hpt
      have hrest : Owns img s (footprint s.mem root \ {pte2pa e}) := hs.owns.mono Set.sdiff_subset
      have hfootdisj : ∀ a ∈ footprint s.mem root \ {pte2pa e}, a ∉ ({pte2pa e} : Set ℕ) :=
        fun a ha => ha.2
      have hm' := hm.union hrest hfootdisj
      have hown1 := hm'.owns
      rw [Set.empty_union] at hown1
      have htabown : Owns img s1 (tables s1.mem root) := by
        rw [htab1]
        exact hown1.mono fun a ha => ⟨.inl ha, htabdisj a ha⟩
      have hstore := store_leaf ht1 htabown hva39 hleaf1 (v := 0) (by decide)
      rw [hasFlag_zero, if_neg Bool.false_ne_true] at hstore
      have htr1' : translate s1.mem root = translate s.mem root := funext htr1
      rw [htr1'] at hstore
      have hpages := pagesOf_replace_none hs.user hlt hentry fun va' h => translate_congr_va h
      have hpown : Owns img s1 (pagesOf (translate s.mem root) \ {pte2pa e}) :=
        hown1.mono fun a ha => ⟨.inr ha.1, ha.2⟩
      obtain ⟨hspace, hmoves, hpages', hdata⟩ := Space.of_remaps hstore
        (by rw [htab1]; exact hs.tablePage) hpown
        (by rw [htab1]; exact fun a ha => hs.notTable a ha.1) hpages.subset hs.user.replace_none
        htabown
      refine ⟨hspace, ?_, by rw [← htab1]; exact hstore.sub, fun a _ => Set.notMem_empty a,
        hstore.map, fun va' hva' e' he' hg => ?_⟩
      · refine (hm'.of_eq ?_ ?_).trans (hmoves.of_eq rfl ?_)
        · rw [Set.union_empty, Set.singleton_union, Set.insert_sdiff_singleton,
            Set.insert_eq_of_mem (show pte2pa e ∈ footprint s.mem root from .inr hmem)]
        · rw [Set.empty_union, footprint, Set.union_sdiff_distrib, htab1]
          congr 1
          ext a
          exact ⟨fun h => h.1, fun h => ⟨h, htabdisj a h⟩⟩
        · rw [footprint, hpages', hpages, Set.union_empty]
      · have hne' : pte2pa e' ≠ pte2pa e := by
          intro h
          have hsame := hs.user.inj va' hva' va hlt e' e he' hentry h
          rw [replaceEntry, if_pos hsame] at hg
          cases hg
        have hin : pte2pa e' ∈ pagesOf (translate s.mem root) := ⟨va', hva', e', he', rfl⟩
        exact (hm.same hrest hfootdisj ⟨.inr hin, hne'⟩).trans (hdata _ ⟨hin, hne'⟩)

/-! ## Shrinking -/

/-- The map without the addresses from `lo` to `hi`. -/
def cutRange (f : ℕ → Option ℕ) (lo hi va : ℕ) : Option ℕ :=
  if lo ≤ va ∧ va < hi then none else f va

/-- The loop of `uvmunmap` that frees the user pages. -/
theorem unmapUserFrom_runs {n : ℕ} (hs : Space img s root) (hva : va % pgsize = 0)
    (hend : va + n * pgsize ≤ trapframeVa) :
    Runs E (unmapFrom img root true n va) s fun _ s' =>
      Reshapes img s s' root (cutRange (translate s.mem root) va (va + n * pgsize)) ∅ ∅ := by
  induction n generalizing s va with
  | zero =>
    refine .pure ((Reshapes.refl hs).congr fun va' _ => ?_)
    exact (if_neg (by omega)).symm
  | succ n ih =>
    have hbound : va + (n + 1) * pgsize = va + pgsize + n * pgsize := by
      rw [Nat.add_mul, Nat.one_mul]
      omega
    have hpos : 0 < pgsize := by decide
    rw [hbound] at hend ⊢
    refine .bind (unmapUser_runs hs (by omega)) fun _ s1 h1 => ?_
    -- Clearing the first page and then the rest clears the whole range.
    have hcut : ∀ va' < 2 ^ 39, cutRange (translate s1.mem root) (va + pgsize)
        (va + pgsize + n * pgsize) va' =
        cutRange (translate s.mem root) va (va + pgsize + n * pgsize) va' := by
      intro va' hva'
      unfold cutRange
      rw [h1.map va' hva', replaceEntry]
      have hpage : va' / pgsize = va / pgsize ↔ va ≤ va' ∧ va' < va + pgsize := by
        simp only [pgsize] at *
        omega
      by_cases hin : va ≤ va' ∧ va' < va + pgsize
      · rw [if_neg (by omega), if_pos (hpage.mpr hin), if_pos (by omega)]
      · rw [if_neg (mt hpage.mp hin)]
        by_cases hrest : va + pgsize ≤ va' ∧ va' < va + pgsize + n * pgsize
        · rw [if_pos hrest, if_pos (by omega)]
        · rw [if_neg hrest, if_neg (by omega)]
    refine (ih h1.space (by rw [Nat.add_mod_right, hva]) hend).mono fun _ s2 h2 => ?_
    refine h1.trans (h2.congr hcut) fun va' hva' e he hg => ?_
    unfold cutRange at hg
    split at hg
    · cases hg
    · rename_i hout
      rw [replaceEntry, if_neg, he]
      intro hpage
      simp only [pgsize] at *
      omega

/-- Rounding up a size that is far from the end of the 64-bit range. -/
theorem pgroundup_eq {sz : ℕ} (h : sz ≤ maxva) :
    pgroundup sz % pgsize = 0 ∧ sz ≤ pgroundup sz ∧ pgroundup sz < sz + pgsize := by
  unfold pgroundup pgsize
  unfold maxva at h
  omega

theorem pgroundup_le {sz top : ℕ} (h : sz ≤ top) (htop : top % pgsize = 0) (hmax : top ≤ maxva) :
    pgroundup sz ≤ top := by
  have := pgroundup_eq (h.trans hmax)
  simp only [pgsize] at *
  omega

theorem trapframeVa_mod : trapframeVa % pgsize = 0 := by decide

/-- A small number survives the conversion to `int`. -/
theorem viaInt_eq {x : ℕ} (hx : x < 2 ^ 31) : viaInt x = x := by
  unfold viaInt
  rw [Nat.mod_eq_of_lt (by omega), if_pos hx]

/-- `uvmdealloc` frees the pages between the two sizes. -/
theorem uvmdealloc_runs {oldsz newsz : ℕ} (hs : Space img s root) (hold : oldsz ≤ trapframeVa) :
    Runs E (uvmdealloc img root oldsz newsz) s fun r s' =>
      r = min oldsz newsz ∧ Reshapes img s s' root
        (if newsz < oldsz then cutRange (translate s.mem root) (pgroundup newsz) (pgroundup oldsz)
          else translate s.mem root) ∅ ∅ := by
  have hmax : trapframeVa ≤ maxva := trapframeVa_lt_maxva.le
  have holdup := pgroundup_eq (hold.trans hmax)
  have holdtop := pgroundup_le hold trapframeVa_mod hmax
  unfold uvmdealloc
  by_cases hle : newsz ≥ oldsz
  · rw [if_pos hle]
    rw [if_neg (show ¬ newsz < oldsz by omega)]
    exact .pure ⟨by omega, Reshapes.refl hs⟩
  · rw [if_neg hle, if_pos (show newsz < oldsz by omega)]
    have hnewup := pgroundup_eq (show newsz ≤ maxva by omega)
    dsimp only
    by_cases hpages : pgroundup newsz < pgroundup oldsz
    · rw [if_pos hpages]
      obtain ⟨n, hn⟩ : ∃ n, pgroundup oldsz = pgroundup newsz + n * pgsize := by
        refine ⟨(pgroundup oldsz - pgroundup newsz) / pgsize, ?_⟩
        simp only [pgsize] at *
        omega
      have hdiv : (pgroundup oldsz - pgroundup newsz) / pgsize = n := by
        rw [hn, Nat.add_sub_cancel_left, Nat.mul_div_cancel _ (by decide)]
      have hsmall : n < 2 ^ 31 := by
        unfold trapframeVa trampolineVa maxva pgsize at holdtop
        unfold pgsize at hn
        omega
      rw [hdiv, viaInt_eq hsmall, uvmunmap_eq true hnewup.1 (by omega)]
      refine .bind (unmapUserFrom_runs hs hnewup.1 (by omega)) fun _ s1 h1 => ?_
      rw [← hn] at h1
      exact .pure ⟨by omega, h1⟩
    · rw [if_neg hpages]
      refine .pure ⟨by omega, (Reshapes.refl hs).congr fun va' _ => ?_⟩
      exact (if_neg (by omega)).symm

/-! ## Growing -/

/-- A change by a program that owns pages beside the address space. -/
theorem Reshapes.of_moves (hs : Space img s root) (hm : Moves img s s' A B)
    (hdisj : ∀ a ∈ footprint s.mem root, a ∉ A) :
    Reshapes img s s' root (translate s.mem root) A B := by
  obtain ⟨hspace, htr, htab, hfoot, hsame⟩ := hs.frame hm hdisj
  refine ⟨hspace, (hm.union hs.owns hdisj).of_eq (Set.union_comm _ _) ?_, htab.symm.subset, ?_,
    fun va _ => htr va,
    fun va hva e he _ => hsame _ (.inr ⟨va, hva, e, he, rfl⟩)⟩
  · rw [hfoot, Set.union_comm]
  · rw [hfoot]
    intro a ha hB
    exact ((hm.total a).mp (.inl hB)).elim (hdisj a ha) (hs.owns.inUse a ha)

/-- A change of the map after steps that left it alone. -/
theorem Reshapes.andThen {C : Set ℕ} (h : Reshapes img s s' root (translate s.mem root) A B)
    (h' : Reshapes img s' s'' root g B C) : Reshapes img s s'' root g A C :=
  h.trans h' fun _ _ _ he _ => he

/-- The map after steps that left it alone. -/
theorem Reshapes.translate_eq (h : Reshapes img s s' root (translate s.mem root) A B) :
    translate s'.mem root = translate s.mem root := by
  funext va
  rw [translate_mod, h.map _ (Nat.mod_lt _ (by decide)), ← translate_mod]

/-- Working on a page beside the address space. -/
theorem Reshapes.beside {C : Set ℕ} (h : Reshapes img s s' root (translate s.mem root) A B)
    (hm : Moves img s' s'' B C) : Reshapes img s s'' root (translate s.mem root) A C := by
  have h' := h.andThen (Reshapes.of_moves h.space hm h.apart)
  rwa [h.translate_eq] at h'

/-- What `uvmalloc`, `vmfault` and `uvmcopy` do for one page: take a page, fill it, map it, and
give it back if there is no room for the tables. -/
theorem mapFresh_runs {α : Type} {Q : α → Vm → Prop} {perm : ℕ} {fill : Vm → ℕ → UInt8}
    {failed failed' : VmM α} {mapped : ℕ → VmM α} (hs : Space img s root) (hva : va % pgsize = 0)
    (hlt : va < trapframeVa) (hnone : translate s.mem root va = none) (hperm : perm < 2 ^ 10)
    (hfailed : ∀ s', Reshapes img s s' root (translate s.mem root) ∅ ∅ →
      Runs E failed s' Q)
    (hfailed' : ∀ s', Reshapes img s s' root (translate s.mem root) ∅ ∅ →
      Runs E failed' s' Q)
    (hmapped : ∀ r s1 s', IsPage img r → r ∈ s.freelist → Moves img s s1 ∅ {r} →
      Reshapes img s s' root (replaceEntry (translate s.mem root) va (some (pteFor r perm))) ∅ ∅ →
      (∀ k < pgsize, s'.mem (r + k) = fill s1 k) → Runs E (mapped r) s' Q) :
    Runs E (kalloc >>= fun mem => if mem = 0 then failed else
      (Seq.modify fun s => s.setMem (Bytes.blit s.mem mem pgsize (fill s))) >>= fun _ =>
        mappages root va pgsize mem perm >>= fun r =>
          if r ≠ 0 then kfree img mem >>= fun _ => failed' else mapped mem) s Q := by
  refine .bind (kalloc_runs (hs.owns.mono (Set.empty_subset _))) ?_
  have hempty : ∀ a ∈ footprint s.mem root, a ∉ (∅ : Set ℕ) := fun a _ => Set.notMem_empty a
  rintro r s1 (⟨rfl, hm, -⟩ | ⟨hr, hfree, hm⟩)
  · rw [if_pos rfl]
    exact hfailed s1 (Reshapes.of_moves hs hm hempty)
  · rw [if_neg hr.pos]
    refine .modify_bind ?_
    have hfill : Moves img s1 (s1.setMem (Bytes.blit s1.mem r pgsize (fill s1))) {r} {r} :=
      Moves.blit hm.owns rfl 0 pgsize (by decide) _
    have hbytes : ∀ k < pgsize, (s1.setMem (Bytes.blit s1.mem r pgsize (fill s1))).mem (r + k) =
        fill s1 k := by
      intro k hk
      have := Bytes.blit_inside s1.mem (fill s1) (Nat.le_add_right r k) (Nat.add_lt_add_left hk r)
      rwa [Nat.add_sub_cancel_left] at this
    generalize s1.setMem (Bytes.blit s1.mem r pgsize (fill s1)) = s2 at hfill hbytes ⊢
    have h2 := Reshapes.of_moves hs (hm.trans hfill) hempty
    refine .bind (mapUser_runs h2.space hva hlt (by rw [h2.translate_eq, hnone]) hr
      hfill.owns (fun h => h2.apart r h rfl) hperm) ?_
    rw [h2.translate_eq]
    rintro res s3 (⟨rfl, hsame, h3⟩ | ⟨rfl, h3⟩)
    · rw [if_neg (by decide)]
      refine hmapped r s1 s3 hr hfree hm (h2.andThen h3) fun k hk => ?_
      rw [hsame _ ⟨by omega, by omega⟩, hbytes k hk]
    · rw [if_pos (by decide)]
      have h3' := h2.andThen h3
      exact .bind (kfree_runs (h3'.moves.owns.mono Set.subset_union_right) hr)
        fun _ s4 hm4 => hfailed' s4 (h3'.beside hm4)

end RiscvKernel
