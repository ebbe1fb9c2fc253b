import RiscvKernel.Vm.Space
import Mathlib.Data.Finset.Card

/-!
# Growing an address space

`uvmalloc` fills a range with zeroed pages or takes back what it has mapped; `vmfault` fills
one page. Since physical memory is bounded, an address space without holes stays far below
the trapframe, so a size taken from a file cannot drive `uvmalloc` past it.
-/

namespace RiscvKernel

open Threads
open Threads.Seq (Runs)

variable {img : KernelImage} {s0 s s' s'' : Vm} {root va lo hi perm : ℕ} {E : String → Prop}

/-! ## The bound on an address space without holes -/

/-- An address space without holes below `a` needs a page of physical memory for each of its
pages. -/
theorem Space.dense_le {a : ℕ} (hs : Space img s root) (ha : a ≤ trapframeVa)
    (hmod : a % pgsize = 0) (hdense : ∀ va < a, translate s.mem root va ≠ none) :
    a ≤ physstop := by
  have hpos : 0 < pgsize := by decide
  have hentry : ∀ k < a / pgsize, ∃ e, translate s.mem root (k * pgsize) = some e ∧
      k * pgsize < trapframeVa := by
    intro k hk
    have hlt : k * pgsize < a := (Nat.lt_div_iff_mul_lt hpos).mp hk |>.trans_le (Nat.sub_le _ _)
    obtain ⟨e, he⟩ := Option.ne_none_iff_exists'.mp (hdense _ hlt)
    exact ⟨e, he, hlt.trans_le ha⟩
  -- The pages below `a` go injectively into the page numbers below `PHYSTOP`.
  have hcard : (Finset.range (a / pgsize)).card ≤ (Finset.range (physstop / pgsize)).card := by
    refine Finset.card_le_card_of_injOn
      (fun k => pte2pa ((translate s.mem root (k * pgsize)).getD 0) / pgsize) ?_ ?_
    · intro k hk
      obtain ⟨e, he, hlt⟩ := hentry k (Finset.mem_range.mp hk)
      have hpage := hs.user.page _ hlt e he
      simp only [he, Option.getD_some, Finset.coe_range, Set.mem_Iio]
      exact Nat.div_lt_div_of_lt_of_dvd (by decide) hpage.lt_physstop
    · intro k hk k' hk' heq
      obtain ⟨e, he, hlt⟩ := hentry k (Finset.mem_range.mp hk)
      obtain ⟨e', he', hlt'⟩ := hentry k' (Finset.mem_range.mp hk')
      simp only [he, he', Option.getD_some] at heq
      have hsame : pte2pa e = pte2pa e' := by
        have h1 := pte2pa_mod e
        have h2 := pte2pa_mod e'
        simp only [pgsize] at heq h1 h2
        omega
      have hva := hs.user.inj _ hlt _ hlt' e e' he he' hsame
      rwa [Nat.mul_div_cancel _ hpos, Nat.mul_div_cancel _ hpos] at hva
  rw [Finset.card_range, Finset.card_range] at hcard
  simp only [pgsize] at hcard hmod
  unfold physstop kernbase at *
  omega

/-! ## Filling a range -/

/-- The address space has got zeroed pages from `lo` to `hi`. -/
structure Fills (img : KernelImage) (s s' : Vm) (root lo hi perm : ℕ) : Prop where
  /-- Pages are conserved, and the pages that were there are untouched. -/
  reshapes : Reshapes img s s' root (translate s'.mem root) ∅ ∅
  /-- The other addresses translate as before. -/
  outside : ∀ va < 2 ^ 39, ¬ (lo ≤ va ∧ va < hi) →
    translate s'.mem root va = translate s.mem root va
  /-- The range is mapped. -/
  inside : ∀ va, lo ≤ va → va < hi → ∃ r, IsPage img r ∧
    translate s'.mem root va = some (pteFor r perm) ∧ ∀ k < pgsize, s'.mem (r + k) = 0

theorem Fills.refl (hs : Space img s root) : Fills img s s root lo lo perm :=
  ⟨Reshapes.refl hs, fun _ _ _ => rfl, fun va h1 h2 => by omega⟩

/-- A range grows when what is mapped stays mapped and the new part is zeroed. -/
theorem Fills.trans {top : ℕ} (h : Fills img s s' root lo hi perm)
    (h' : Fills img s' s'' root hi top perm) (hle : lo ≤ hi) (hhi : hi ≤ top)
    (hperm : perm < 2 ^ 10) (htop : hi ≤ trapframeVa)
    (hnone : ∀ va, lo ≤ va → va < top → translate s.mem root va = none) :
    Fills img s s'' root lo top perm := by
  have hlt := trapframeVa_lt
  refine ⟨h.reshapes.trans h'.reshapes ?_, ?_, ?_⟩
  · intro va hva e he hg
    rw [h.outside va (hva.trans hlt), he]
    rintro ⟨h1, h2⟩
    rw [hnone va h1 (by omega)] at he
    cases he
  · intro va hva hout
    rw [h'.outside va hva (by omega), h.outside va hva (by omega)]
  · intro va h1 h2
    by_cases hnew : hi ≤ va
    · exact h'.inside va hnew h2
    · obtain ⟨r, hr, htr, hzero⟩ := h.inside va h1 (by omega)
      have htr' : translate s''.mem root va = some (pteFor r perm) := by
        rw [h'.outside va (by omega) (by omega), htr]
      refine ⟨r, hr, htr', fun k hk => ?_⟩
      have hsame := h'.reshapes.data va (by omega) _ htr htr'
      rw [(pteFor_spec hr.lt hr.mod hperm).1] at hsame
      rw [hsame _ ⟨by omega, by omega⟩, hzero k hk]

/-- Steps that leave the map alone fill an empty range. -/
theorem Fills.of_reshapes (h : Reshapes img s s' root (translate s.mem root) ∅ ∅) :
    Fills img s s' root lo lo perm :=
  ⟨h.congr fun va hva => (h.map va hva).symm, fun va hva _ => h.map va hva,
    fun va h1 h2 => by omega⟩

/-- Mapping one zeroed page fills its range. -/
theorem Fills.of_replace {r : ℕ} (hr : IsPage img r) (hlo : lo % pgsize = 0)
    (hlt : lo + pgsize ≤ trapframeVa)
    (h : Reshapes img s s' root (replaceEntry (translate s.mem root) lo (some (pteFor r perm)))
      ∅ ∅) (hzero : ∀ k < pgsize, s'.mem (r + k) = 0) :
    Fills img s s' root lo (lo + pgsize) perm := by
  have hpage : ∀ va, va / pgsize = lo / pgsize ↔ lo ≤ va ∧ va < lo + pgsize := by
    intro va
    simp only [pgsize] at *
    omega
  refine ⟨h.congr fun va hva => (h.map va hva).symm, fun va hva hout => ?_, fun va h1 h2 => ?_⟩
  · rw [h.map va hva, replaceEntry, if_neg (mt (hpage va).mp hout)]
  · refine ⟨r, hr, ?_, hzero⟩
    have hlt39 := trapframeVa_lt
    rw [h.map va (by omega), replaceEntry, if_pos ((hpage va).mpr ⟨h1, h2⟩)]

/-- Taking back a range. -/
theorem Fills.undo_runs (h : Fills img s s' root lo hi perm) (hle : lo ≤ hi)
    (hlo : lo % pgsize = 0) (hhi : hi % pgsize = 0) (htop : hi ≤ trapframeVa)
    (hnone : ∀ va, lo ≤ va → va < hi → translate s.mem root va = none) :
    Runs E (uvmdealloc img root hi lo >>= fun _ => pure 0) s' fun (r : ℕ) s'' =>
      r = 0 ∧ Reshapes img s s'' root (translate s.mem root) ∅ ∅ := by
  have hmax := trapframeVa_lt_maxva
  have hlt := trapframeVa_lt
  have hlo' : pgroundup lo = lo := le_antisymm (pgroundup_le le_rfl hlo (by omega))
    (pgroundup_eq (show lo ≤ maxva by omega)).2.1
  have hhi' : pgroundup hi = hi := le_antisymm (pgroundup_le le_rfl hhi (by omega))
    (pgroundup_eq (show hi ≤ maxva by omega)).2.1
  refine .bind (uvmdealloc_runs h.reshapes.space htop) fun _ s1 h₁ =>
    .pure ⟨rfl, ?_⟩
  refine h.reshapes.trans (h₁.2.congr fun va hva => ?_) fun va hva e he _ => ?_
  · rw [hlo', hhi']
    by_cases hin : lo ≤ va ∧ va < hi
    · rw [if_pos (by omega), cutRange, if_pos hin, hnone va hin.1 hin.2]
    · rw [apply_ite (fun f : ℕ → Option ℕ => f va), cutRange, if_neg hin, ite_self,
        h.outside va hva hin]
  · rw [h.outside va (by omega), he]
    rintro ⟨h1, h2⟩
    rw [hnone va h1 h2] at he
    cases he

/-- The loop of `uvmalloc`. The range must end below the trapframe, or there must be no hole
below it. -/
theorem uvmallocFrom_runs {newsz xperm n : ℕ}
    (hf : Fills img s0 s root lo hi (pteR ||| pteU ||| xperm)) (hle : lo ≤ hi)
      (hlo : lo % pgsize = 0) (hhi : hi % pgsize = 0) (htop : hi ≤ trapframeVa)
    (hperm : (pteR ||| pteU ||| xperm) < 2 ^ 10)
    (hnone : ∀ va, lo ≤ va → va < trapframeVa → translate s0.mem root va = none)
    (hroom : hi + n * pgsize ≤ trapframeVa ∨ ∀ va < lo, translate s0.mem root va ≠ none) :
    Runs E (uvmallocFrom img root lo newsz xperm n hi) s fun r s' =>
      (r = newsz ∧ hi + n * pgsize ≤ trapframeVa ∧
        Fills img s0 s' root lo (hi + n * pgsize) (pteR ||| pteU ||| xperm)) ∨
      (r = 0 ∧ Reshapes img s0 s' root (translate s0.mem root) ∅ ∅) := by
  induction n generalizing s hi with
  | zero =>
    rw [Nat.zero_mul, Nat.add_zero]
    exact .pure (.inl ⟨rfl, htop, hf⟩)
  | succ n ih =>
    have hnext : hi + (n + 1) * pgsize = hi + pgsize + n * pgsize := by
      rw [Nat.add_mul, Nat.one_mul]
      omega
    rw [hnext] at hroom ⊢
    have hlt := trapframeVa_lt
    have hpos : 0 < pgsize := by decide
    -- Either way the next page lies below the trapframe.
    have hfit : hi + pgsize ≤ trapframeVa := by
      rcases hroom with hroom | hdense
      · omega
      · have hbound := hf.reshapes.space.dense_le htop hhi fun va hva => by
          by_cases hin : lo ≤ va
          · obtain ⟨r, -, htr, -⟩ := hf.inside va hin hva
            rw [htr]
            exact Option.some_ne_none _
          · rw [hf.outside va (by omega) (by omega)]
            exact hdense va (by omega)
        have : physstop + pgsize ≤ trapframeVa := by decide
        omega
    have hundo : ∀ s1, Reshapes img s s1 root (translate s.mem root) ∅ ∅ →
        Runs E (uvmdealloc img root hi lo >>= fun _ => pure 0) s1 fun r s' =>
          (r = newsz ∧ hi + pgsize + n * pgsize ≤ trapframeVa ∧
            Fills img s0 s' root lo (hi + pgsize + n * pgsize) (pteR ||| pteU ||| xperm)) ∨
          (r = 0 ∧ Reshapes img s0 s' root (translate s0.mem root) ∅ ∅) := by
      intro s1 h₁
      have hf1 := hf.trans (Fills.of_reshapes h₁) hle le_rfl hperm htop fun va h1 h2 =>
        hnone va h1 (by omega)
      exact (hf1.undo_runs hle hlo hhi htop fun va h1 h2 => hnone va h1 (by omega)).mono
        fun _ _ h => .inr h
    refine mapFresh_runs hf.reshapes.space hhi (by omega) ?_ hperm hundo hundo ?_
    · rw [hf.outside hi (by omega) (by omega)]
      exact hnone hi hle (by omega)
    · intro r s1 s2 hr _ _ h₂ hzero
      have hf2 := hf.trans (Fills.of_replace hr hhi hfit h₂ hzero) hle (by omega) hperm htop
        fun va h1 h2 => hnone va h1 (by omega)
      exact ih hf2 (by omega) (by rw [Nat.add_mod_right, hhi]) hfit hroom

/-- `uvmalloc` grows the address space with zeroed pages, or fails and leaves its map as it
was. -/
theorem uvmalloc_runs {oldsz newsz xperm : ℕ} (hs : Space img s root) (hold : oldsz ≤ trapframeVa)
    (hperm : (pteR ||| pteU ||| xperm) < 2 ^ 10)
    (hnone : ∀ va, pgroundup oldsz ≤ va → va < trapframeVa → translate s.mem root va = none)
    (hroom : newsz ≤ trapframeVa ∨ ∀ va < pgroundup oldsz, translate s.mem root va ≠ none) :
    Runs E (uvmalloc img root oldsz newsz xperm) s fun r s' =>
      (newsz < oldsz ∧ r = oldsz ∧ s' = s) ∨
      (oldsz ≤ newsz ∧ r = newsz ∧ newsz ≤ trapframeVa ∧
        Fills img s s' root (pgroundup oldsz) (pgroundup newsz) (pteR ||| pteU ||| xperm)) ∨
      (r = 0 ∧ Reshapes img s s' root (translate s.mem root) ∅ ∅) := by
  have hmax := trapframeVa_lt_maxva
  have holdup := pgroundup_eq (hold.trans hmax.le)
  have holdtop := pgroundup_le hold trapframeVa_mod hmax.le
  have hend : ∀ {n : ℕ}, n = (newsz - pgroundup oldsz + pgsize - 1) / pgsize →
      newsz ≤ pgroundup oldsz + n * pgsize := by
    rintro n rfl
    simp only [pgsize]
    omega
  rw [uvmalloc]
  by_cases hlt : newsz < oldsz
  · rw [if_pos hlt]
    exact .pure (.inl ⟨hlt, rfl, rfl⟩)
  · rw [if_neg hlt]
    have hup : newsz ≤ trapframeVa → pgroundup newsz =
        pgroundup oldsz + (newsz - pgroundup oldsz + pgsize - 1) / pgsize * pgsize := by
      intro hnew
      have hnewup := pgroundup_eq (hnew.trans hmax.le)
      simp only [pgsize] at *
      omega
    refine (uvmallocFrom_runs (Fills.refl hs) le_rfl holdup.1 holdup.1 holdtop hperm hnone
      (hroom.imp_left fun hnew => ?_)).mono ?_
    · rw [← hup hnew]
      exact pgroundup_le hnew trapframeVa_mod hmax.le
    · rintro r s' (⟨rfl, hfit, hf⟩ | h)
      · have hnew : r ≤ trapframeVa := (hend rfl).trans hfit
        rw [hup hnew]
        exact .inr (.inl ⟨by omega, rfl, hnew, hf⟩)
      · exact .inr (.inr h)

/-! ## Filling one page on demand -/

/-- What `ismapped` returns. -/
theorem ismapped_eq (ht : Table s.mem root) (hva : va < maxva) :
    ismapped root va s = .ok (translate s.mem root va).isSome s := by
  rw [ismapped, Seq.bind_apply, walk_false s hva, Seq.ok_bind]
  rcases pteSlot_cases ht va with ⟨hslot, hnone⟩ | ⟨pt, hpt, hslot, hne⟩
  · rw [if_pos hslot, hnone, Seq.pure_apply, Option.isSome_none]
  · rw [hslot, if_neg hne, Seq.bind_apply, load_apply, Seq.ok_bind, translate_of_slot hpt,
      Seq.pure_apply]
    cases hasFlag (Bytes.num s.mem (pteAddr pt (px 0 va)) 8) pteV with
    | false => rw [if_neg Bool.false_ne_true, Option.isSome_none]
    | true => rw [if_pos rfl, Option.isSome_some]

/-- The page of an address. -/
theorem pgrounddown_div (va : ℕ) : pgrounddown va / pgsize = va / pgsize :=
  Nat.mul_div_cancel _ (by decide)

theorem pgrounddown_le (va : ℕ) : pgrounddown va ≤ va := Nat.div_mul_le_self va pgsize

theorem pgrounddown_mod (va : ℕ) : pgrounddown va % pgsize = 0 := Nat.mul_mod_left _ _

/-- `vmfault` fills the page of an address below the size that has none, or changes nothing. -/
theorem vmfault_runs {sz : ℕ} (hs : Space img s root) (hsz : sz ≤ trapframeVa) :
    Runs E (vmfault img ⟨sz, root⟩ root va) s fun r s' =>
      (r = 0 ∧ Reshapes img s s' root (translate s.mem root) ∅ ∅) ∨
      (va < sz ∧ translate s.mem root va = none ∧ IsPage img r ∧
        Reshapes img s s' root
          (replaceEntry (translate s.mem root) va (some (pteFor r (pteW ||| pteU ||| pteR)))) ∅ ∅ ∧
        ∀ k < pgsize, s'.mem (r + k) = 0) := by
  rw [vmfault]
  by_cases hge : va ≥ sz
  · rw [if_pos hge]
    exact .pure (.inl ⟨rfl, Reshapes.refl hs⟩)
  · rw [if_neg hge]
    have hle := pgrounddown_le va
    have hmax := trapframeVa_lt_maxva
    have hsame : translate s.mem root (pgrounddown va) = translate s.mem root va :=
      translate_congr_va (pgrounddown_div va)
    refine .of_eq_bind (ismapped_eq hs.table (by omega)) ?_
    rw [hsame]
    cases hentry : translate s.mem root va with
    | some e =>
      rw [Option.isSome_some, if_pos rfl]
      exact .pure (.inl ⟨rfl, Reshapes.refl hs⟩)
    | none =>
      rw [Option.isSome_none, if_neg Bool.false_ne_true]
      have hfail : ∀ s', Reshapes img s s' root (translate s.mem root) ∅ ∅ →
          Runs E (pure 0) s' fun r s' =>
            (r = 0 ∧ Reshapes img s s' root (translate s.mem root) ∅ ∅) ∨ (va < sz ∧
              (none : Option ℕ) = none ∧ IsPage img r ∧ Reshapes img s s' root (replaceEntry
                (translate s.mem root) va (some (pteFor r (pteW ||| pteU ||| pteR)))) ∅ ∅ ∧
              ∀ k < pgsize, s'.mem (r + k) = 0) :=
        fun s' h => .pure (.inl ⟨rfl, h⟩)
      refine mapFresh_runs hs (pgrounddown_mod va) (by omega) (hsame.trans hentry) (by decide)
        hfail hfail ?_
      intro r s1 s2 hr _ _ h2 hzero
      refine .pure (.inr ⟨by omega, rfl, hr, h2.congr fun va' _ => ?_, hzero⟩)
      rw [replaceEntry, replaceEntry, pgrounddown_div]

end RiscvKernel
