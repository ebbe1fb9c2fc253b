import RiscvKernel.Vm.Model

/-!
# Who owns which physical page

A set of pages is owned when the allocator holds none of them. `Moves s s' A B` says that
a program which owned `A` owns `B` afterwards: pages went back and forth between it and the
free list, none was lost or given away twice, and no other page was touched. Programs
compose, and what they do not own stays as it is.
-/

namespace RiscvKernel

open Threads

variable {img : KernelImage} {s s' s'' : Vm} {A B C F : Set ℕ}

/-- A page that `kfree` accepts. -/
structure IsPage (img : KernelImage) (a : ℕ) : Prop where
  /-- It is aligned. -/
  mod : a % pgsize = 0
  /-- It lies behind the kernel. -/
  kend_le : img.kend ≤ a
  /-- It lies in physical memory. -/
  lt_physstop : a < physstop

theorem IsPage.pos {a : ℕ} (h : IsPage img a) : a ≠ 0 := by
  have h1 := h.kend_le
  have h2 := img.trampoline_lt
  omega

theorem IsPage.lt {a : ℕ} (h : IsPage img a) : a < 2 ^ 64 :=
  lt_trans h.lt_physstop (by decide)

/-- The allocator is sound and holds none of the pages in `A`. -/
structure Owns (img : KernelImage) (s : Vm) (A : Set ℕ) : Prop where
  /-- No page is free twice. -/
  nodup : s.freelist.Nodup
  /-- What is free can be freed. -/
  page : ∀ a ∈ s.freelist, IsPage img a
  /-- The pages of `A` are in use. -/
  inUse : ∀ a ∈ A, a ∉ s.freelist
  /-- The pages of `A` are pages. -/
  mod : ∀ a ∈ A, a % pgsize = 0

theorem Owns.mono (h : Owns img s A) (hBA : B ⊆ A) : Owns img s B :=
  ⟨h.nodup, h.page, fun a ha => h.inUse a (hBA ha), fun a ha => h.mod a (hBA ha)⟩

/-- Two sets of pages. -/
theorem Owns.union (hA : Owns img s A) (hB : Owns img s B) : Owns img s (A ∪ B) :=
  ⟨hA.nodup, hA.page, fun a ha => ha.elim (hA.inUse a) (hB.inUse a),
    fun a ha => ha.elim (hA.mod a) (hB.mod a)⟩

/-- The page at `a` has the same bytes. -/
def SamePage (s s' : Vm) (a : ℕ) : Prop := ∀ x, InPage a x → s'.mem x = s.mem x

/-- A program that owned `A` now owns `B`, and has touched nothing else. -/
structure Moves (img : KernelImage) (s s' : Vm) (A B : Set ℕ) : Prop where
  /-- The pages of `B` are in use. -/
  owns : Owns img s' B
  /-- Pages only moved between the program and the allocator. -/
  total : ∀ a, a ∈ B ∨ a ∈ s'.freelist ↔ a ∈ A ∨ a ∈ s.freelist
  /-- The other pages are untouched. -/
  frame : ∀ a, a % pgsize = 0 → a ∉ A → a ∉ s.freelist → SamePage s s' a

namespace Moves

theorem trans (h : Moves img s s' A B) (h' : Moves img s' s'' B C) : Moves img s s'' A C := by
  refine ⟨h'.owns, fun a => (h'.total a).trans (h.total a), fun a hmod hA hfree x hx => ?_⟩
  have hB : ¬ (a ∈ B ∨ a ∈ s'.freelist) := fun hor => ((h.total a).mp hor).elim hA hfree
  rw [h'.frame a hmod (fun hb => hB (Or.inl hb)) (fun hf => hB (Or.inr hf)) x hx]
  exact h.frame a hmod hA hfree x hx

/-- What the program does not own stays as it is. -/
theorem union (h : Moves img s s' A B) (hF : Owns img s F) (hdisj : ∀ a ∈ F, a ∉ A) :
    Moves img s s' (A ∪ F) (B ∪ F) := by
  refine ⟨h.owns.union ⟨h.owns.nodup, h.owns.page, ?_, hF.mod⟩, fun a => ?_,
    fun a hmod hA hfree => h.frame a hmod (fun ha => hA (.inl ha)) hfree⟩
  · intro a ha hfree
    exact ((h.total a).mp (.inr hfree)).elim (hdisj a ha) (hF.inUse a ha)
  · have htotal := h.total a
    constructor
    · rintro ((hB | hF) | hfree)
      · exact (htotal.mp (.inl hB)).imp_left .inl
      · exact .inl (.inr hF)
      · exact (htotal.mp (.inr hfree)).imp_left .inl
    · rintro ((hA | hF) | hfree)
      · exact (htotal.mpr (.inl hA)).imp_left .inl
      · exact .inl (.inr hF)
      · exact (htotal.mpr (.inr hfree)).imp_left .inl

theorem of_eq (h : Moves img s s' A B) {A' B' : Set ℕ} (hA : A = A') (hB : B = B') :
    Moves img s s' A' B' := hA ▸ hB ▸ h

/-- A page in use elsewhere is untouched. -/
theorem same (h : Moves img s s' A B) (hF : Owns img s F) (hdisj : ∀ a ∈ F, a ∉ A) {a : ℕ}
    (ha : a ∈ F) : SamePage s s' a :=
  h.frame a (hF.mod a ha) (hdisj a ha) (hF.inUse a ha)

/-- What others hold is not among the pages that the program ends up with. -/
theorem apart (h : Moves img s s' A B) (hF : Owns img s F) (hdisj : ∀ a ∈ F, a ∉ A) :
    ∀ a ∈ F, a ∉ B :=
  fun a ha hB => ((h.total a).mp (.inl hB)).elim (hdisj a ha) (hF.inUse a ha)

/-- The memory and the free list are as they were. -/
theorem of_same (h : Owns img s A) (hmem : s'.mem = s.mem) (hfree : s'.freelist = s.freelist) :
    Moves img s s' A A := by
  refine ⟨⟨?_, ?_, ?_, h.mod⟩, fun a => by rw [hfree], fun a _ _ _ x _ => by rw [hmem]⟩
  · rw [hfree]
    exact h.nodup
  · rw [hfree]
    exact h.page
  · rw [hfree]
    exact h.inUse

theorem refl (h : Owns img s A) : Moves img s s A A := of_same h rfl rfl

/-- A program may change the pages it owns. -/
theorem change (h : Owns img s A) {a : ℕ} (ha : a ∈ A) (hfree : s'.freelist = s.freelist)
    (hmem : ∀ x, ¬ InPage a x → s'.mem x = s.mem x) : Moves img s s' A A := by
  refine ⟨⟨?_, ?_, ?_, h.mod⟩, fun _ => by rw [hfree], fun b hmod hb _ x hx => ?_⟩
  · rw [hfree]
    exact h.nodup
  · rw [hfree]
    exact h.page
  · rw [hfree]
    exact h.inUse
  · refine hmem x fun hax => hb ?_
    rwa [← hax.eq hx (h.mod a ha) hmod]

/-- A program may write into the pages it owns. -/
theorem write (h : Owns img s A) {mem : ℕ → UInt8} {a : ℕ} (ha : a ∈ A)
    (hmem : ∀ x, ¬ InPage a x → mem x = s.mem x) : Moves img s (s.setMem mem) A A :=
  change h ha rfl hmem

end Moves

/-! ## The allocator -/

/-- `kalloc` fails without a trace or hands over a page that was free. -/
theorem kalloc_runs {E : String → Prop} (h : Owns img s ∅) :
    Seq.Runs E kalloc s fun r s' =>
      (r = 0 ∧ Moves img s s' ∅ ∅ ∧ s'.mem = s.mem) ∨
      (IsPage img r ∧ r ∈ s.freelist ∧ Moves img s s' ∅ {r}) := by
  have hfail : Moves img s { s with calls := s.calls + 1 } ∅ ∅ := Moves.of_same h rfl rfl
  cases hlist : s.freelist with
  | nil =>
    refine .of_eq (a := 0) (t := { s with calls := s.calls + 1 }) ?_ (.inl ⟨rfl, hfail, rfl⟩)
    rw [kalloc, hlist]
  | cons r rest =>
    cases hdeny : s.deny s.calls with
    | true =>
      refine .of_eq (a := 0) (t := { s with calls := s.calls + 1 }) ?_
        (.inl ⟨rfl, hfail, rfl⟩)
      simp [kalloc, hlist, hdeny]
    | false =>
      refine .of_eq (a := r) (t := ⟨Bytes.blit s.mem r pgsize fun _ => 5, rest, s.deny,
        s.calls + 1⟩) ?_ (.inr ⟨h.page r (by simp [hlist]), by simp, ?_⟩)
      · simp [kalloc, hlist, hdeny]
      · have hnodup := h.nodup
        rw [hlist, List.nodup_cons] at hnodup
        refine ⟨⟨hnodup.2, ?_, ?_, ?_⟩, ?_, ?_⟩
        · exact fun a ha => h.page a (by rw [hlist]; exact List.mem_cons_of_mem r ha)
        · rintro a rfl
          exact hnodup.1
        · rintro a rfl
          exact (h.page a (by simp [hlist])).mod
        · intro a
          simp [hlist]
        · intro a hmod _ hfree x hx
          show Bytes.blit s.mem r pgsize (fun _ => 5) x = s.mem x
          refine Bytes.blit_outside _ _ ?_
          have hra : r ≠ a := fun heq => hfree (by rw [hlist, ← heq]; exact List.mem_cons_self)
          have hrmod := (h.page r (by simp [hlist])).mod
          unfold InPage pgsize at *
          omega

/-- Filling an owned page. -/
theorem Moves.blit (h : Owns img s A) {a : ℕ} (ha : a ∈ A) (off n : ℕ)
    (hn : off + n ≤ pgsize) (src : ℕ → UInt8) :
      Moves img s (s.setMem (Bytes.blit s.mem (a + off) n src)) A A := by
  refine Moves.write h ha fun x hx => Bytes.blit_outside _ _ ?_
  unfold InPage at hx
  omega

/-- `kfree` gives back a page. -/
theorem kfree_runs {E : String → Prop} {a : ℕ} (h : Owns img s {a}) (ha : IsPage img a) :
    Seq.Runs E (kfree img a) s fun _ s' => Moves img s s' {a} ∅ := by
  have hok : ¬ (a % pgsize ≠ 0 ∨ a < img.kend ∨ a ≥ physstop) := by
    have h1 := ha.mod
    have h2 := ha.kend_le
    have h3 := ha.lt_physstop
    omega
  rw [kfree, if_neg hok]
  refine .modify_bind (.modify ?_)
  have hfree : a ∉ s.freelist := h.inUse a rfl
  refine ⟨⟨List.nodup_cons.mpr ⟨hfree, h.nodup⟩, ?_, fun b hb => hb.elim, fun b hb => hb.elim⟩,
    ?_, ?_⟩
  · intro b hb
    rcases List.mem_cons.mp hb with rfl | hb
    · exact ha
    · exact h.page b hb
  · intro b
    simp [Vm.setMem]
  · intro b hmod hb _ x hx
    show Bytes.blit s.mem a pgsize (fun _ => 1) x = s.mem x
    refine Bytes.blit_outside _ _ ?_
    have hba : b ≠ a := hb
    have hamod := ha.mod
    unfold InPage pgsize at *
    omega

/-! ## Several owners -/

section Shares

variable {ι : Type} {all : Set ℕ} {share share' : ι → Set ℕ} {o o' : ι}

/-- The pages in `all` are free or belong to exactly one owner. -/
structure Shares (img : KernelImage) (s : Vm) (all : Set ℕ) (share : ι → Set ℕ) : Prop where
  /-- They are pages of the allocator. -/
  page : ∀ a ∈ all, IsPage img a
  /-- Every owner owns its share. -/
  owns : ∀ o, Owns img s (share o)
  /-- No page has two owners. -/
  disjoint : ∀ o o', o ≠ o' → ∀ a ∈ share o, a ∉ share o'
  /-- No page is lost. -/
  total : ∀ a, a ∈ all ↔ a ∈ s.freelist ∨ ∃ o, a ∈ share o

/-- What is shared out is a page. -/
theorem Shares.isPage (h : Shares img s all share) {a : ℕ} (ha : a ∈ share o) : IsPage img a :=
  h.page a ((h.total a).mpr (.inr ⟨o, ha⟩))

/-- What others hold is untouched when one owner moves. -/
theorem Shares.same (h : Shares img s all share) (hm : Moves img s s' (share o) B) (hne : o' ≠ o)
    {a : ℕ} (ha : a ∈ share o') : SamePage s s' a :=
  hm.same (h.owns o') (h.disjoint o' o hne) ha

/-- One owner moves, the others stay. -/
theorem Shares.move (h : Shares img s all share) (hm : Moves img s s' (share o) (share' o))
    (hrest : ∀ o' ≠ o, share' o' = share o') : Shares img s' all share' := by
  have howns : ∀ o' ≠ o, Owns img s' (share' o') := by
    intro o' hne
    rw [hrest o' hne]
    refine ⟨hm.owns.nodup, hm.owns.page, fun a ha hfree => ?_, (h.owns o').mod⟩
    exact ((hm.total a).mp (.inr hfree)).elim (h.disjoint o' o hne a ha)
      ((h.owns o').inUse a ha)
  have hapart : ∀ o' ≠ o, ∀ a ∈ share' o', a ∉ share' o := by
    intro o' hne a ha
    rw [hrest o' hne] at ha
    exact hm.apart (h.owns o') (h.disjoint o' o hne) a ha
  refine ⟨h.page, fun o' => ?_, fun o1 o2 hne a ha hb => ?_, fun a => ?_⟩
  · by_cases heq : o' = o
    · rw [heq]
      exact hm.owns
    · exact howns o' heq
  · by_cases h1 : o1 = o
    · subst h1
      exact hapart o2 (Ne.symm hne) a hb ha
    · by_cases h2 : o2 = o
      · subst h2
        exact hapart o1 h1 a ha hb
      · rw [hrest o1 h1] at ha
        rw [hrest o2 h2] at hb
        exact h.disjoint o1 o2 hne a ha hb
  · rw [h.total a]
    constructor
    · rintro (hfree | ⟨o', ha⟩)
      · exact ((hm.total a).mpr (.inr hfree)).elim (fun hb => .inr ⟨o, hb⟩) .inl
      · by_cases heq : o' = o
        · subst heq
          exact ((hm.total a).mpr (.inl ha)).elim (fun hb => .inr ⟨o', hb⟩) .inl
        · exact .inr ⟨o', by rwa [hrest o' heq]⟩
    · rintro (hfree | ⟨o', ha⟩)
      · exact ((hm.total a).mp (.inr hfree)).elim (fun hb => .inr ⟨o, hb⟩) .inl
      · by_cases heq : o' = o
        · subst heq
          exact ((hm.total a).mp (.inl ha)).elim (fun hb => .inr ⟨o', hb⟩) .inl
        · exact .inr ⟨o', by rwa [← hrest o' heq]⟩

end Shares

end RiscvKernel
