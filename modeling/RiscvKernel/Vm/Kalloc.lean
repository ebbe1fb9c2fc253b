import Mathlib.Logic.Relation
import RiscvKernel.Lib.Chain
import RiscvKernel.Vm.Table

/-!
# The page allocator

`kalloc.c` with the free list in the free pages: the first word of a free page is a pointer to the
next one. Over any history of allocations, releases and stores into allocated pages, the list has
exactly the pages that are not allocated. `RiscvKernel.Vm.Model` has the same functions with a list
of pages in place of the pointers; they agree.
-/

namespace RiscvKernel

open Threads Function
open Bytes (blit num)

/-- The memory and `kmem`. -/
structure Kmem where
  /-- The bytes of physical memory. -/
  mem : ℕ → UInt8
  /-- `kmem.freelist`. -/
  freelist : ℕ

namespace Kmem

/-! ## The functions -/

/-- `r->next`. -/
def next (mem : ℕ → UInt8) (r : ℕ) : ℕ := num mem r 8

/-- `memset` of a page. -/
def fill (pa : ℕ) (c : UInt8) : Seq Kmem Unit :=
  Seq.modify fun k => { k with mem := blit k.mem pa pgsize fun _ => c }

/-- `kfree`; `kend` is the end of the kernel. -/
def kfree (kend pa : ℕ) : Seq Kmem Unit :=
  if pa % pgsize ≠ 0 ∨ pa < kend ∨ pa ≥ physstop then Seq.panic "kfree"
  else do
    fill pa 1
    Seq.modify fun k => { k with mem := Bytes.put k.mem pa 8 k.freelist }
    Seq.modify fun k => { k with freelist := pa }

/-- The loop of `freerange`; `fuel` bounds its rounds. -/
def freerangeFrom (kend paEnd : ℕ) : ℕ → ℕ → Seq Kmem Unit
  | 0, _ => Seq.stuck
  | fuel + 1, p =>
    if (p + pgsize) % 2 ^ 64 ≤ paEnd then do
      kfree kend p
      freerangeFrom kend paEnd fuel ((p + pgsize) % 2 ^ 64)
    else return ()

/-- `kinit`. -/
def kinit (kend : ℕ) : Seq Kmem Unit :=
  freerangeFrom kend physstop (physstop / pgsize + 1) (pgroundup kend)

/-- `kalloc`. -/
def kalloc : Seq Kmem ℕ := do
  let r ← Seq.gets Kmem.freelist
  if r ≠ 0 then
    Seq.modify fun k => { k with freelist := next k.mem r }
    fill r 5
  return r

/-! ## The list -/

/-- The state after `kfree` has put a page in front of the list. -/
def push (k : Kmem) (pa : ℕ) : Kmem :=
  ⟨Bytes.put (blit k.mem pa pgsize fun _ => 1) pa 8 k.freelist, pa⟩

/-- The state after `kalloc` has taken the first page. -/
def pop (k : Kmem) (r : ℕ) : Kmem := ⟨blit k.mem r pgsize fun _ => 5, next k.mem r⟩

section List

variable {k : Kmem} {a b pa r x : ℕ} {l : List ℕ} {mem mem' : ℕ → UInt8}

/-- `kfree` of a legal page. -/
theorem kfree_eq {kend : ℕ} (h : ¬ (pa % pgsize ≠ 0 ∨ pa < kend ∨ pa ≥ physstop)) :
    kfree kend pa k = .ok () (k.push pa) := by
  rw [kfree, if_neg h]
  rfl

/-- `kalloc` takes the first page. -/
theorem kalloc_eq (hr : k.freelist = r) (hne : r ≠ 0) : kalloc k = .ok r (k.pop r) := by
  simp [kalloc, hr, hne, fill, pop]

/-- Two pages do not overlap. -/
theorem not_inPage (ha : a % pgsize = 0) (hb : b % pgsize = 0) (hne : a ≠ b) (hx : InPage a x) :
    ¬ InPage b x := by
  unfold InPage at *
  unfold pgsize at *
  omega

/-- The link of a page is on the page. -/
theorem next_congr (h : ∀ x, InPage a x → mem' x = mem x) : next mem' a = next mem a := by
  apply Bytes.num_congr
  intro i hi
  exact h _ ⟨by omega, by unfold pgsize; omega⟩

/-- `memset` of a page leaves the other bytes. -/
theorem fill_outside (c : UInt8) (hx : ¬ InPage a x) :
    blit mem a pgsize (fun _ => c) x = mem x := by
  unfold InPage at hx
  exact Bytes.blit_outside _ _ (by omega)

theorem push_mem : (k.push pa).mem =
    Bytes.put (blit k.mem pa pgsize fun _ => 1) pa 8 k.freelist := rfl

theorem pop_mem : (k.pop r).mem = blit k.mem r pgsize fun _ => 5 := rfl

/-- `kfree` stays in its page. -/
theorem push_outside (hx : ¬ InPage pa x) : (k.push pa).mem x = k.mem x := by
  have hlink : x < pa ∨ pa + 8 ≤ x := by
    unfold InPage pgsize at hx
    omega
  rw [push_mem, Bytes.put, Bytes.blit_outside _ _ hlink, fill_outside 1 hx]

/-- `kalloc` stays in its page. -/
theorem pop_outside (hx : ¬ InPage r x) : (k.pop r).mem x = k.mem x := by
  rw [pop_mem, fill_outside 5 hx]

theorem head_lt (hpath : Chain.Path (next k.mem) k.freelist l 0) (hl : ∀ a ∈ l, a < 2 ^ 64) :
    k.freelist < 2 ^ 64 := by
  cases l with
  | nil =>
    rw [show k.freelist = 0 from hpath]
    norm_num
  | cons c l =>
    rw [hpath.1]
    exact hl c List.mem_cons_self

/-- The list gets longer by the page that is freed. -/
theorem push_path (hpath : Chain.Path (next k.mem) k.freelist l 0) (hl : ∀ a ∈ l, a < 2 ^ 64)
    (hout : ∀ a ∈ l, ∀ x, InPage a x → ¬ InPage pa x) :
    Chain.Path (next (k.push pa).mem) (k.push pa).freelist (pa :: l) 0 := by
  have hnext : next (k.push pa).mem pa = k.freelist := by
    rw [next, push_mem, Bytes.num_put_same, Nat.mod_eq_of_lt (by simpa using head_lt hpath hl)]
  refine ⟨rfl, ?_⟩
  rw [hnext]
  exact hpath.congr fun a ha => next_congr fun x hx => push_outside (hout a ha x hx)

/-- The list without its first page. -/
theorem pop_path (hpath : Chain.Path (next k.mem) (next k.mem r) l 0)
    (hout : ∀ a ∈ l, ∀ x, InPage a x → ¬ InPage r x) :
    Chain.Path (next (k.pop r).mem) (k.pop r).freelist l 0 :=
  hpath.congr fun a ha => next_congr fun x hx => pop_outside (hout a ha x hx)

end List

/-! ## The invariant -/

/-- The pages that the allocator manages. -/
def Pages (kend : ℕ) : Set ℕ := {a | a % pgsize = 0 ∧ pgroundup kend ≤ a ∧ a < physstop}

/-- The free list has exactly the pages that are not allocated. -/
structure Inv (kend : ℕ) (k : Kmem) (A : Set ℕ) : Prop where
  pages : A ⊆ Pages kend
  list : ∃ l, Chain.Path (next k.mem) k.freelist l 0 ∧ l.Nodup ∧
    ∀ a, a ∈ l ↔ a ∈ Pages kend ∧ a ∉ A

section Steps

variable {kend : ℕ} {k : Kmem} {A : Set ℕ} {a b pa x : ℕ} {mem mem' : ℕ → UInt8}

/-- Pages lie behind the kernel. -/
theorem kend_le_of_mem (hkend : kend ≤ 2 ^ 64 - pgsize) (ha : a ∈ Pages kend) : kend ≤ a := by
  obtain ⟨-, hge, -⟩ := ha
  unfold pgroundup at hge
  unfold pgsize at hkend hge
  omega

theorem pos_of_mem (h0 : 0 < kend) (hkend : kend ≤ 2 ^ 64 - pgsize) (ha : a ∈ Pages kend) :
    0 < a :=
  h0.trans_le (kend_le_of_mem hkend ha)

/-- The list stays if the other pages change only. -/
theorem Inv.congr_list (h : Inv kend k A) {mem' : ℕ → UInt8}
    (hmem : ∀ a ∈ Pages kend, a ∉ A → ∀ x, InPage a x → mem' x = k.mem x) :
    Inv kend { k with mem := mem' } A := by
  obtain ⟨l, hpath, hnodup, hl⟩ := h.list
  refine ⟨h.pages, l, hpath.congr fun a ha => ?_, hnodup, hl⟩
  obtain ⟨hpage, hfree⟩ := (hl a).1 ha
  exact next_congr (hmem a hpage hfree)

/-- A store into an allocated page. -/
theorem Inv.store (h : Inv kend k A) (ha : a ∈ A) (hx : InPage a x) (c : UInt8) :
    Inv kend { k with mem := update k.mem x c } A := by
  apply h.congr_list
  intro b hb hfree y hy
  apply update_of_ne
  rintro rfl
  have hne : a ≠ b := by
    rintro rfl
    exact hfree ha
  exact not_inPage (h.pages ha).1 hb.1 hne hx hy

/-- `kfree` of an allocated page puts it in front of the list. -/
theorem Inv.kfree (h : Inv kend k A) (hkend : kend ≤ 2 ^ 64 - pgsize) (hpa : pa ∈ A) :
    ∃ k', kfree kend pa k = .ok () k' ∧ Inv kend k' (A \ {pa}) ∧
      ∀ x, ¬ InPage pa x → k'.mem x = k.mem x := by
  obtain ⟨hmod, -, hlt⟩ := h.pages hpa
  have hge := kend_le_of_mem hkend (h.pages hpa)
  obtain ⟨l, hpath, hnodup, hl⟩ := h.list
  have hsmall : ∀ a ∈ l, a < 2 ^ 64 := by
    intro a ha
    exact ((hl a).1 ha).1.2.2.trans (by decide)
  have hout : ∀ a ∈ l, ∀ x, InPage a x → ¬ InPage pa x := by
    intro a ha x hx
    obtain ⟨hpage, hfree⟩ := (hl a).1 ha
    exact not_inPage hpage.1 hmod (by rintro rfl; exact hfree hpa) hx
  refine ⟨k.push pa, kfree_eq (by omega), ⟨?_, pa :: l, push_path hpath hsmall hout, ?_, ?_⟩,
    fun x => push_outside⟩
  · exact Set.sdiff_subset.trans h.pages
  · exact List.nodup_cons.2 ⟨fun hmem => ((hl pa).1 hmem).2 hpa, hnodup⟩
  · intro b
    rw [List.mem_cons, hl b]
    constructor
    · rintro (rfl | ⟨hb, hfree⟩)
      · exact ⟨h.pages hpa, fun hin => hin.2 rfl⟩
      · exact ⟨hb, fun hin => hfree hin.1⟩
    · rintro ⟨hb, hout⟩
      by_cases heq : b = pa
      · exact .inl heq
      · exact .inr ⟨hb, fun hin => hout ⟨hin, heq⟩⟩

/-- `kalloc` takes the first page of the list. -/
theorem Inv.kalloc (h : Inv kend k A) (h0 : 0 < kend) (hkend : kend ≤ 2 ^ 64 - pgsize) :
    ∃ r k', kalloc k = .ok r k' ∧
      (r = 0 ∧ k' = k ∧ Pages kend ⊆ A ∨
        r ≠ 0 ∧ r ∈ Pages kend ∧ r ∉ A ∧ Inv kend k' (insert r A) ∧
          ∀ x, ¬ InPage r x → k'.mem x = k.mem x) := by
  obtain ⟨l, hpath, hnodup, hl⟩ := h.list
  cases l with
  | nil =>
    have hnull : k.freelist = 0 := hpath
    refine ⟨0, k, by simp [Kmem.kalloc, hnull], .inl ⟨rfl, rfl, ?_⟩⟩
    intro a ha
    by_contra hfree
    exact absurd ((hl a).2 ⟨ha, hfree⟩) List.not_mem_nil
  | cons r l =>
    obtain ⟨hhead, hpath⟩ := hpath
    obtain ⟨hpage, hfree⟩ := (hl r).1 List.mem_cons_self
    obtain ⟨hnew, hnodup⟩ := List.nodup_cons.1 hnodup
    have hne : r ≠ 0 := (pos_of_mem h0 hkend hpage).ne'
    refine ⟨r, k.pop r, kalloc_eq hhead hne, .inr ⟨hne, hpage, hfree,
      ⟨Set.insert_subset hpage h.pages, l, pop_path hpath ?_, hnodup, ?_⟩, fun x => pop_outside⟩⟩
    · intro b hb x hx
      obtain ⟨hb', -⟩ := (hl b).1 (List.mem_cons_of_mem _ hb)
      exact not_inPage hb'.1 hpage.1 (by rintro rfl; exact hnew hb) hx
    · intro b
      have hmem := hl b
      rw [List.mem_cons] at hmem
      constructor
      · intro hb
        obtain ⟨hb', hout⟩ := hmem.1 (.inr hb)
        refine ⟨hb', ?_⟩
        rintro (rfl | hin)
        · exact hnew hb
        · exact hout hin
      · rintro ⟨hb, hout⟩
        rcases hmem.2 ⟨hb, fun hin => hout (.inr hin)⟩ with rfl | hb'
        · exact absurd (.inl rfl) hout
        · exact hb'

/-- The pages from `p` on. -/
def PagesFrom (kend p : ℕ) : Set ℕ := {a | a ∈ Pages kend ∧ p ≤ a}

/-- The loop of `freerange` frees the pages from `p` on. -/
theorem Inv.freerangeFrom {fuel p : ℕ} (hkend : kend ≤ 2 ^ 64 - pgsize) (hp : p % pgsize = 0)
    (hge : pgroundup kend ≤ p) (hlt : p + pgsize < 2 ^ 64) (h : Inv kend k (PagesFrom kend p))
    (hpos : 0 < fuel) (hfuel : physstop < p + fuel * pgsize) :
    ∃ k', freerangeFrom kend physstop fuel p k = .ok () k' ∧ Inv kend k' ∅ := by
  have hstop : physstop % pgsize = 0 := by decide
  have hstop' : physstop + pgsize < 2 ^ 64 := by decide
  induction fuel generalizing k p with
  | zero => omega
  | succ fuel ih =>
    rw [Kmem.freerangeFrom, Nat.mod_eq_of_lt hlt]
    by_cases hmore : p + pgsize ≤ physstop
    · have hpage : p ∈ PagesFrom kend p := by
        refine ⟨⟨hp, hge, ?_⟩, le_rfl⟩
        unfold pgsize at hmore
        omega
      have hrest : PagesFrom kend p \ {p} = PagesFrom kend (p + pgsize) := by
        ext a
        constructor
        · rintro ⟨⟨ha, hle⟩, hne⟩
          refine ⟨ha, ?_⟩
          have hmod := ha.1
          have hne' : a ≠ p := hne
          unfold pgsize at *
          omega
        · rintro ⟨ha, hle⟩
          unfold pgsize at hle
          refine ⟨⟨ha, by omega⟩, ?_⟩
          rintro rfl
          omega
      obtain ⟨k1, hfree, h1, -⟩ := h.kfree hkend hpage
      rw [hrest] at h1
      rw [if_pos hmore, Seq.bind_apply, hfree, Seq.ok_bind]
      rw [Nat.succ_mul] at hfuel
      refine ih ?_ (by omega) (by omega) h1 ?_ (by omega)
      · rw [Nat.add_mod_right]
        exact hp
      · by_contra hzero
        rw [Nat.eq_zero_of_not_pos hzero, Nat.zero_mul] at hfuel
        omega
    · rw [if_neg hmore]
      refine ⟨k, rfl, ?_⟩
      have hnone : PagesFrom kend p = ∅ := by
        apply Set.eq_empty_of_forall_notMem
        rintro a ⟨⟨hmod, -, hend⟩, hle⟩
        unfold pgsize at *
        omega
      rwa [hnone] at h

/-- `kinit` puts all pages on the list. -/
theorem kinit_inv (hkend : kend ≤ 2 ^ 64 - 2 * pgsize) (mem : ℕ → UInt8) :
    ∃ k, kinit kend ⟨mem, 0⟩ = .ok () k ∧ Inv kend k ∅ := by
  have hround : pgroundup kend % pgsize = 0 := Nat.mul_mod_left _ _
  have hle : pgroundup kend + pgsize < 2 ^ 64 := by
    unfold pgroundup
    unfold pgsize at hkend ⊢
    omega
  have hkend' : kend ≤ 2 ^ 64 - pgsize := by
    unfold pgsize at hkend ⊢
    omega
  -- Before the loop all pages count as allocated.
  have hinit : Inv kend ⟨mem, 0⟩ (PagesFrom kend (pgroundup kend)) := by
    refine ⟨fun a ha => ha.1, [], rfl, List.nodup_nil, ?_⟩
    intro a
    constructor
    · intro ha
      exact absurd ha List.not_mem_nil
    · rintro ⟨ha, hout⟩
      exact absurd ⟨ha, ha.2.1⟩ hout
  refine hinit.freerangeFrom hkend' hround le_rfl hle (Nat.succ_pos _) ?_
  have : physstop < (physstop / pgsize + 1) * pgsize := by decide
  omega

end Steps

/-! ## Histories -/

/-- The allocator, and the pages that were allocated and not freed. -/
structure Sys where
  k : Kmem
  allocated : Set ℕ

/-- One call of the allocator or one store by the owner of a page. -/
inductive Step (kend : ℕ) : Sys → Sys → Prop
  | kalloc {s : Sys} {r : ℕ} {k' : Kmem} (h : kalloc s.k = .ok r k') :
    Step kend s ⟨k', if r = 0 then s.allocated else insert r s.allocated⟩
  | kfree {s : Sys} {pa : ℕ} {k' : Kmem} (hpa : pa ∈ s.allocated)
    (h : kfree kend pa s.k = .ok () k') : Step kend s ⟨k', s.allocated \ {pa}⟩
  | store {s : Sys} {a x : ℕ} (ha : a ∈ s.allocated) (hx : InPage a x) (c : UInt8) :
    Step kend s ⟨{ s.k with mem := update s.k.mem x c }, s.allocated⟩

/-- The states after `kinit` and any sequence of steps. -/
def Reachable (kend : ℕ) (s : Sys) : Prop :=
  ∃ mem k, kinit kend ⟨mem, 0⟩ = .ok () k ∧ Relation.ReflTransGen (Step kend) ⟨k, ∅⟩ s

section Histories

variable {kend : ℕ} {s s' : Sys}

/-- Every step keeps the invariant. -/
theorem Step.inv (hstep : Step kend s s') (h0 : 0 < kend) (hkend : kend ≤ 2 ^ 64 - pgsize)
    (h : Inv kend s.k s.allocated) : Inv kend s'.k s'.allocated := by
  cases hstep with
  | kalloc hcall =>
    obtain ⟨r, k', hok, hres⟩ := h.kalloc h0 hkend
    rw [hok] at hcall
    cases hcall
    rcases hres with ⟨rfl, rfl, -⟩ | ⟨hne, -, -, hinv, -⟩
    · rwa [if_pos rfl]
    · rwa [if_neg hne]
  | kfree hpa hcall =>
    obtain ⟨k', hok, hinv, -⟩ := h.kfree hkend hpa
    rw [hok] at hcall
    cases hcall
    exact hinv
  | store ha hx c => exact h.store ha hx c

/-- The invariant holds in every run. -/
theorem Reachable.inv (hs : Reachable kend s) (h0 : 0 < kend)
    (hkend : kend ≤ 2 ^ 64 - 2 * pgsize) : Inv kend s.k s.allocated := by
  have hkend' : kend ≤ 2 ^ 64 - pgsize := by
    unfold pgsize at hkend ⊢
    omega
  obtain ⟨mem, k, hinit, hsteps⟩ := hs
  obtain ⟨k', hok, hinv⟩ := kinit_inv hkend mem
  rw [hok] at hinit
  cases hinit
  induction hsteps with
  | refl => exact hinv
  | tail _ hstep ih => exact hstep.inv h0 hkend' ih

/-- The allocator is a set of pages: `kinit` makes all pages free, `kalloc` takes one of the free
pages if there is one, `kfree` gives one back; neither touches another allocated page. -/
theorem allocator_refines_set (kend : ℕ) (h0 : 0 < kend) (hkend : kend ≤ 2 ^ 64 - 2 * pgsize) :
    (∀ mem, ∃ k, kinit kend ⟨mem, 0⟩ = .ok () k) ∧
      ∀ s, Reachable kend s →
        (∃ l, Chain.Path (next s.k.mem) s.k.freelist l 0 ∧ l.Nodup ∧
          ∀ a, a ∈ l ↔ a ∈ Pages kend ∧ a ∉ s.allocated) ∧
        (∃ r k', kalloc s.k = .ok r k' ∧ (r = 0 ↔ ∀ a ∈ Pages kend, a ∈ s.allocated) ∧
          (r ≠ 0 → r ∈ Pages kend ∧ r ∉ s.allocated) ∧
          ∀ a ∈ s.allocated, ∀ x, InPage a x → k'.mem x = s.k.mem x) ∧
        ∀ pa ∈ s.allocated, ∃ k', kfree kend pa s.k = .ok () k' ∧
          ∀ a ∈ s.allocated, a ≠ pa → ∀ x, InPage a x → k'.mem x = s.k.mem x := by
  have hkend' : kend ≤ 2 ^ 64 - pgsize := by
    unfold pgsize at hkend ⊢
    omega
  constructor
  · intro mem
    obtain ⟨k, hok, -⟩ := kinit_inv hkend mem
    exact ⟨k, hok⟩
  · intro s hs
    have hinv := hs.inv h0 hkend
    refine ⟨hinv.list, ?_, ?_⟩
    · obtain ⟨r, k', hok, hres⟩ := hinv.kalloc h0 hkend'
      rcases hres with ⟨rfl, rfl, hall⟩ | ⟨hne, hpage, hfree, -, hframe⟩
      · exact ⟨0, s.k, hok, ⟨fun _ a ha => hall ha, fun _ => rfl⟩, fun hne => absurd rfl hne,
          fun _ _ _ _ => rfl⟩
      · refine ⟨r, k', hok, ⟨fun hz => absurd hz hne, fun hall => absurd (hall r hpage) hfree⟩,
          fun _ => ⟨hpage, hfree⟩, ?_⟩
        intro a ha x hx
        exact hframe x (not_inPage (hinv.pages ha).1 hpage.1 (by rintro rfl; exact hfree ha) hx)
    · intro pa hpa
      obtain ⟨k', hok, -, hframe⟩ := hinv.kfree hkend' hpa
      refine ⟨k', hok, ?_⟩
      intro a ha hne x hx
      exact hframe x (not_inPage (hinv.pages ha).1 (hinv.pages hpa).1 hne hx)

/-- The kernel ends two pages below the end of memory. The first page that is allocated can be
freed, and the second one is another. -/
theorem allocator_refines_set_two : ∃ s a r k' k'', Reachable (physstop - 2 * pgsize) s ∧
    s.allocated = {a} ∧ kalloc s.k = .ok r k' ∧ r ≠ 0 ∧ r ≠ a ∧
    kfree (physstop - 2 * pgsize) a s.k = .ok () k'' := by
  obtain ⟨hinit, hall⟩ := allocator_refines_set (physstop - 2 * pgsize) (by decide) (by decide)
  obtain ⟨k, hk⟩ := hinit fun _ => 0
  have hlast : physstop - pgsize ∈ Pages (physstop - 2 * pgsize) :=
    ⟨by decide, by decide, by decide⟩
  have hstart : Reachable (physstop - 2 * pgsize) ⟨k, ∅⟩ := ⟨_, k, hk, Relation.ReflTransGen.refl⟩
  obtain ⟨-, ⟨a, k1, hfirst, hzero, -⟩, -⟩ := hall _ hstart
  have ha : a ≠ 0 := fun ha => hzero.1 ha _ hlast
  have hreach : Reachable (physstop - 2 * pgsize) ⟨k1, {a}⟩ := by
    have hstep : Step (physstop - 2 * pgsize) ⟨k, ∅⟩ _ := .kalloc hfirst
    rw [if_neg ha] at hstep
    exact ⟨_, k, hk, .single (by simpa using hstep)⟩
  obtain ⟨-, ⟨r, k', hsecond, hzero', hnew, -⟩, hfree⟩ := hall _ hreach
  obtain ⟨k'', hfree, -⟩ := hfree a rfl
  have hr : r ≠ 0 := by
    intro hr
    have hone : physstop - pgsize = a := hzero'.1 hr _ hlast
    have htwo : physstop - 2 * pgsize = a := hzero'.1 hr _ ⟨by decide, by decide, by decide⟩
    exact absurd (hone.trans htwo.symm) (by decide)
  exact ⟨_, a, r, k', k'', hreach, rfl, hsecond, hr, (hnew hr).2, hfree⟩

/-- If the kernel ended in the last page of the address space, `PGROUNDUP` would wrap to 0 and
`kinit` would free the page at 0, which lies before the end of the kernel. -/
theorem kinit_panics : ∃ k, kinit (2 ^ 64 - 1) ⟨fun _ => 0, 0⟩ = .panic "kfree" k := ⟨_, rfl⟩

end Histories

/-! ## The list of pages -/

/-- The free list of the pointers is the list of pages, and the memory is the same outside the
free pages. -/
structure Refines (k : Kmem) (v : Vm) : Prop where
  path : Chain.Path (next k.mem) k.freelist v.freelist 0
  nodup : v.freelist.Nodup
  page : ∀ a ∈ v.freelist, a % pgsize = 0 ∧ 0 < a ∧ a < 2 ^ 64
  mem : ∀ x, (∀ a ∈ v.freelist, ¬ InPage a x) → k.mem x = v.mem x

section Refines

variable {img : KernelImage} {k : Kmem} {v : Vm} {pa : ℕ}

/-- `kalloc` on the list does what `kalloc` on the pointers does. -/
theorem Refines.kalloc (h : Refines k v) (hdeny : v.deny v.calls = false) :
    ∃ r k' v', kalloc k = .ok r k' ∧ RiscvKernel.kalloc v = .ok r v' ∧ Refines k' v' := by
  obtain ⟨hpath, hnodup, hpage, hmem⟩ := h
  cases hl : v.freelist with
  | nil =>
    rw [hl] at hpath
    have hnull : k.freelist = 0 := hpath
    refine ⟨0, k, { v with calls := v.calls + 1 }, by simp [Kmem.kalloc, hnull],
      by simp only [RiscvKernel.kalloc, hl], ⟨?_, hnodup, hpage, hmem⟩⟩
    rw [hl]
    exact hpath
  | cons r rest =>
    rw [hl] at hpath hnodup hpage hmem
    obtain ⟨hhead, hpath⟩ := hpath
    obtain ⟨hnew, hnodup⟩ := List.nodup_cons.1 hnodup
    obtain ⟨hmod, hpos, -⟩ := hpage r List.mem_cons_self
    have hrest : ∀ a ∈ rest, a % pgsize = 0 ∧ 0 < a ∧ a < 2 ^ 64 :=
      fun a ha => hpage a (List.mem_cons_of_mem _ ha)
    refine ⟨r, k.pop r, { v with mem := blit v.mem r pgsize fun _ => 5, freelist := rest,
                                 calls := v.calls + 1 }, kalloc_eq hhead hpos.ne', ?_,
      ⟨pop_path hpath ?_, hnodup, hrest, ?_⟩⟩
    · simp [RiscvKernel.kalloc, hl, hdeny]
    · intro b hb x hx
      exact not_inPage (hrest b hb).1 hmod (by rintro rfl; exact hnew hb) hx
    · intro x hx
      by_cases hin : InPage r x
      · change _ = blit v.mem r pgsize (fun _ => 5) x
        rw [pop_mem, Bytes.blit_inside _ _ hin.1 hin.2, Bytes.blit_inside _ _ hin.1 hin.2]
      · have hsame : k.mem x = v.mem x := by
          apply hmem
          intro a ha
          rcases List.mem_cons.1 ha with rfl | ha
          · exact hin
          · exact hx a ha
        rw [pop_outside hin, hsame]
        exact (fill_outside 5 hin).symm

/-- So does `kfree`, on a page that is not free. -/
theorem Refines.kfree (h : Refines k v) (hpa : pa ∉ v.freelist) :
    (∃ k' v', kfree img.kend pa k = .ok () k' ∧ RiscvKernel.kfree img pa v = .ok () v' ∧
      Refines k' v') ∨
      kfree img.kend pa k = .panic "kfree" k ∧ RiscvKernel.kfree img pa v = .panic "kfree" v := by
  obtain ⟨hpath, hnodup, hpage, hmem⟩ := h
  by_cases hcheck : pa % pgsize ≠ 0 ∨ pa < img.kend ∨ pa ≥ physstop
  · right
    rw [Kmem.kfree, RiscvKernel.kfree, if_pos hcheck, if_pos hcheck]
    exact ⟨rfl, rfl⟩
  left
  have hmod : pa % pgsize = 0 := by omega
  have hlt : pa < 2 ^ 64 := by
    have : physstop < 2 ^ 64 := by decide
    omega
  refine ⟨k.push pa, { v with mem := blit v.mem pa pgsize fun _ => 1,
                              freelist := pa :: v.freelist }, kfree_eq hcheck, ?_,
    ⟨push_path hpath (fun a ha => (hpage a ha).2.2) ?_, List.nodup_cons.2 ⟨hpa, hnodup⟩, ?_, ?_⟩⟩
  · rw [RiscvKernel.kfree, if_neg hcheck]
    rfl
  · intro a ha x hx
    exact not_inPage (hpage a ha).1 hmod (by rintro rfl; exact hpa ha) hx
  · intro a ha
    rcases List.mem_cons.1 ha with rfl | ha
    · have := img.trampoline_lt
      exact ⟨hmod, by omega, hlt⟩
    · exact hpage a ha
  · intro x hx
    have hout := hx pa List.mem_cons_self
    rw [push_outside hout, hmem x fun a ha => hx a (List.mem_cons_of_mem _ ha)]
    exact (fill_outside 1 hout).symm

/-- A store outside the free pages. -/
theorem Refines.store (h : Refines k v) {x : ℕ} (hx : ∀ a ∈ v.freelist, ¬ InPage a x) (c : UInt8) :
    Refines { k with mem := update k.mem x c } { v with mem := update v.mem x c } := by
  refine ⟨h.path.congr fun a ha => next_congr fun y hy => update_of_ne ?_ _ _, h.nodup, h.page, ?_⟩
  · rintro rfl
    exact hx a ha hy
  · intro y hy
    dsimp only at hy ⊢
    by_cases hyx : y = x
    · rw [hyx, update_self, update_self]
    · rw [update_of_ne hyx, update_of_ne hyx]
      exact h.mem y hy

/-- A call on the pointers and the same call on the list, or a store that does not touch a free
page. -/
inductive Both (img : KernelImage) : Kmem × Vm → Kmem × Vm → Prop
  | kalloc {k k' : Kmem} {v v' : Vm} {r r' : ℕ} (hdeny : v.deny v.calls = false)
    (h : kalloc k = .ok r k') (h' : RiscvKernel.kalloc v = .ok r' v') : Both img (k, v) (k', v')
  | kfree {k k' : Kmem} {v v' : Vm} {pa : ℕ} (hpa : pa ∉ v.freelist)
    (h : kfree img.kend pa k = .ok () k') (h' : RiscvKernel.kfree img pa v = .ok () v') :
    Both img (k, v) (k', v')
  | store {k : Kmem} {v : Vm} {x : ℕ} (hx : ∀ a ∈ v.freelist, ¬ InPage a x) (c : UInt8) :
    Both img (k, v) ({ k with mem := update k.mem x c }, { v with mem := update v.mem x c })

/-- From the empty list on, the pointers and the list agree: the next `kalloc` returns the same
page. -/
theorem pointers_refine_pages (mem : ℕ → UInt8) (deny : ℕ → Bool) (y : Kmem × Vm)
    (hrun : Relation.ReflTransGen (Both img) (⟨mem, 0⟩, ⟨mem, [], deny, 0⟩) y) :
    Refines y.1 y.2 ∧ (y.2.deny y.2.calls = false →
      ∃ r k' v', kalloc y.1 = .ok r k' ∧ RiscvKernel.kalloc y.2 = .ok r v') := by
  have hrefines : Refines y.1 y.2 := by
    induction hrun with
    | refl => exact ⟨rfl, List.nodup_nil, by simp, fun _ _ => rfl⟩
    | tail _ hstep ih =>
      cases hstep with
      | kalloc hdeny h h' =>
        obtain ⟨r, k', v', hok, hok', hnext⟩ := ih.kalloc hdeny
        cases h.symm.trans hok
        cases h'.symm.trans hok'
        exact hnext
      | kfree hpa h h' =>
        rcases ih.kfree hpa with ⟨k', v', hok, hok', hnext⟩ | ⟨hpanic, -⟩
        · cases h.symm.trans hok
          cases h'.symm.trans hok'
          exact hnext
        · cases h.symm.trans hpanic
      | store hx c => exact ih.store hx c
  refine ⟨hrefines, fun hdeny => ?_⟩
  obtain ⟨r, k', v', hok, hok', -⟩ := hrefines.kalloc hdeny
  exact ⟨r, k', v', hok, hok'⟩

/-- Two pages are freed, one of them is allocated and written. -/
theorem pointers_refine_pages_four : ∃ y : Kmem × Vm, y.2.freelist = [kernbase + pgsize] ∧
    y.2.mem (kernbase + 2 * pgsize) = 9 ∧ Refines y.1 y.2 := by
  have hfirst : Both tinyImage (⟨fun _ => 0, 0⟩, ⟨fun _ => 0, [], fun _ => false, 0⟩) _ :=
    .kfree (show kernbase + pgsize ∉ [] from List.not_mem_nil) rfl rfl
  have hrun := (((Relation.ReflTransGen.single hfirst).tail
    (.kfree (show kernbase + 2 * pgsize ∉ [kernbase + pgsize] by decide) rfl rfl)).tail
    (.kalloc rfl rfl rfl)).tail (.store (x := kernbase + 2 * pgsize)
      (List.forall_mem_singleton.mpr (by unfold InPage; decide)) 9)
  exact ⟨_, rfl, rfl, (pointers_refine_pages _ _ _ hrun).1⟩

end Refines

end Kmem

end RiscvKernel
