import RiscvKernel.Vm.User

/-!
# Copying an address space

`uvmcopy` gives the child a copy of every page of the parent, in pages that were free, or
takes back what it has copied. From then on the two address spaces share no page, so what
either process stores is not seen by the other.
-/

namespace RiscvKernel

open Threads
open Threads.Seq (Runs bind_apply ok_bind)

variable {img : KernelImage} {s0 s s' : Vm} {old new tf tf' sz va n : ℕ} {E : String → Prop}

/-- The pages below `top` have been copied from the table `old` to the table `new`. -/
structure Copied (img : KernelImage) (s0 s : Vm) (old new top : ℕ) : Prop where
  /-- Pages are conserved. -/
  reshapes : Reshapes img s0 s new (translate s.mem new) ∅ ∅
  /-- Above, the child is as it was. -/
  above : ∀ va < 2 ^ 39, top ≤ va → translate s.mem new va = translate s0.mem new va
  /-- What the parent does not map, the child does not map. -/
  hole : ∀ va < top, translate s0.mem old va = none → translate s.mem new va = none
  /-- What the parent maps, the child maps to a copy in a page that was free. -/
  page : ∀ va < top, ∀ e, translate s0.mem old va = some e → ∃ r ∈ s0.freelist, IsPage img r ∧
    translate s.mem new va = some (pteFor r (pteFlags e)) ∧
    ∀ k < pgsize, s.mem (r + k) = s0.mem (pte2pa e + k)

section Copy

variable (hold : ProcSpace img s0 old tf sz) (hnew : ProcSpace img s0 new tf' 0)
  (hdisj : ∀ a ∈ footprint s0.mem old, a ∉ footprint s0.mem new)

include hold hdisj

/-- The parent is untouched. -/
theorem Copied.parent {top : ℕ} (h : Copied img s0 s old new top) :
    Space img s old ∧ (∀ va, translate s.mem old va = translate s0.mem old va) ∧
      footprint s.mem old = footprint s0.mem old ∧ ∀ a ∈ footprint s0.mem old, SamePage s0 s a := by
  obtain ⟨hspace, htr, -, hfoot, hsame⟩ :=
    hold.space.frame h.reshapes.footprint_moves fun a ha => hdisj a ha
  exact ⟨hspace, htr, hfoot, hsame⟩

omit hold hdisj

include hnew

/-- The child has no pages yet. -/
theorem bare_child (hva : va < trapframeVa) : translate s0.mem new va = none :=
  hnew.user va (Nat.zero_le _) hva

/-- It consists of its page tables. -/
theorem footprint_child : footprint s0.mem new = tables s0.mem new := by
  have hpages : pagesOf (translate s0.mem new) = ∅ := by
    ext a
    constructor
    · rintro ⟨va, hva, e, he, -⟩
      rw [bare_child hnew hva] at he
      cases he
    · exact fun h => h.elim
  rw [footprint, hpages, Set.union_empty]

/-- A page that is free now was free before. -/
theorem Copied.free {top r : ℕ} (h : Copied img s0 s old new top) (hr : r ∈ s.freelist) :
    r ∈ s0.freelist := by
  refine ((h.reshapes.footprint_moves.total r).mp (.inr hr)).resolve_left fun hfoot => ?_
  rw [footprint_child hnew] at hfoot
  exact h.reshapes.space.ownsTables.inUse r (h.reshapes.sub hfoot) hr

/-- Taking the copies back. -/
theorem Copied.undo_runs {top : ℕ} (h : Copied img s0 s old new top) (htop : top ≤ trapframeVa)
    (hmod : top % pgsize = 0) (hm : Reshapes img s s' new (translate s.mem new) ∅ ∅) :
    Runs E (uvmunmap img new 0 (top / pgsize) true >>= fun _ => pure (-1)) s' fun r s'' =>
      r = (-1 : ℤ) ∧ Reshapes img s0 s'' new (translate s0.mem new) ∅ ∅ := by
  have hmax := trapframeVa_lt_maxva
  have hn : 0 + top / pgsize * pgsize = top := by
    rw [Nat.zero_add, Nat.div_mul_cancel (Nat.dvd_of_mod_eq_zero hmod)]
  rw [uvmunmap_eq true rfl (by omega)]
  refine .bind (unmapUserFrom_runs hm.space rfl (by omega)) fun _ s2 h2 =>
    .pure ⟨rfl, ?_⟩
  have hm' : Reshapes img s s2 new (cutRange (translate s.mem new) 0 top) ∅ ∅ := by
    have h' := hm.andThen h2
    rwa [hm.translate_eq, hn] at h'
  refine h.reshapes.trans (hm'.congr fun va hva => ?_) fun va hva e he _ => ?_
  · rw [cutRange]
    split
    · rename_i hin
      exact (bare_child hnew (hin.2.trans_le htop)).symm
    · exact h.above va hva (by omega)
  · rw [bare_child hnew hva] at he
    cases he

/-- The parent has no page here, so the child needs none. -/
theorem Copied.skip (h : Copied img s0 s old new va) (hva : va % pgsize = 0)
    (hend : va + pgsize ≤ trapframeVa) (hnone : translate s0.mem old va = none) :
    Copied img s0 s old new (va + pgsize) := by
  have hlt := trapframeVa_lt
  have hpage : ∀ x, va ≤ x → x < va + pgsize → translate s0.mem old x = none := by
    intro x h1 h2
    have hsame : x / pgsize = va / pgsize := by
      simp only [pgsize] at *
      omega
    rw [translate_congr_va hsame, hnone]
  refine ⟨h.reshapes, fun x hx hge => h.above x hx (by omega), fun x hx hx' => ?_,
    fun x hx e he => ?_⟩
  · by_cases hlow : x < va
    · exact h.hole x hlow hx'
    · rw [h.above x (by omega) (by omega), bare_child hnew (by omega)]
  · by_cases hlow : x < va
    · exact h.page x hlow e he
    · rw [hpage x (by omega) hx] at he
      cases he

/-- The page of the parent has been copied. -/
theorem Copied.extend {e r : ℕ} (h : Copied img s0 s old new va) (hva : va % pgsize = 0)
    (hend : va + pgsize ≤ trapframeVa) (he : translate s0.mem old va = some e)
    (hr : IsPage img r) (hfree : r ∈ s.freelist)
    (hm : Reshapes img s s' new
      (replaceEntry (translate s.mem new) va (some (pteFor r (pteFlags e)))) ∅ ∅)
    (hbytes : ∀ k < pgsize, s'.mem (r + k) = s0.mem (pte2pa e + k)) :
    Copied img s0 s' old new (va + pgsize) := by
  have hlt := trapframeVa_lt
  have hpage : ∀ x, x / pgsize = va / pgsize ↔ va ≤ x ∧ x < va + pgsize := by
    intro x
    simp only [pgsize] at *
    omega
  have hmap : ∀ x < 2 ^ 39, ¬ (va ≤ x ∧ x < va + pgsize) →
      translate s'.mem new x = translate s.mem new x := by
    intro x hx hout
    rw [hm.map x hx, replaceEntry, if_neg (mt (hpage x).mp hout)]
  refine ⟨?_, fun x hx hge => ?_, fun x hx hx' => ?_, fun x hx e' he' => ?_⟩
  · refine h.reshapes.trans (hm.congr fun x hx => (hm.map x hx).symm) fun x hx e' he' _ => ?_
    rw [bare_child hnew hx] at he'
    cases he'
  · rw [hmap x hx (by omega), h.above x hx (by omega)]
  · by_cases hlow : x < va
    · rw [hmap x (by omega) (by omega), h.hole x hlow hx']
    · rw [translate_congr_va ((hpage x).mpr ⟨by omega, hx⟩), he] at hx'
      cases hx'
  · by_cases hlow : x < va
    · obtain ⟨r', hr'free, hr', htr, hb⟩ := h.page x hlow e' he'
      have htr' : translate s'.mem new x = some (pteFor r' (pteFlags e')) := by
        rw [hmap x (by omega) (by omega), htr]
      refine ⟨r', hr'free, hr', htr', fun k hk => ?_⟩
      have hsame := hm.data x (by omega) _ htr ((hm.map x (by omega)).symm.trans htr')
      rw [(pteFor_spec hr'.lt hr'.mod (pteFlags_lt e')).1] at hsame
      rw [hsame _ ⟨by omega, by omega⟩, hb k hk]
    · have hsame := (hpage x).mpr ⟨by omega, hx⟩
      have hee : e' = e := by
        rw [translate_congr_va hsame, he] at he'
        exact (Option.some.inj he').symm
      rw [hee]
      refine ⟨r, h.free hnew hfree, hr, ?_, hbytes⟩
      rw [hm.map x (by omega), replaceEntry, if_pos hsame]

include hold hdisj

/-- The loop of `uvmcopy`. -/
theorem uvmcopyFrom_runs (h : Copied img s0 s old new va) (hva : va % pgsize = 0)
    (hend : va + n * pgsize ≤ trapframeVa) :
    Runs E (uvmcopyFrom img old new n va) s fun r s' =>
      (r = 0 ∧ Copied img s0 s' old new (va + n * pgsize)) ∨
      (r = -1 ∧ Reshapes img s0 s' new (translate s0.mem new) ∅ ∅) := by
  induction n generalizing s va with
  | zero =>
    rw [Nat.zero_mul, Nat.add_zero]
    exact .pure (.inl ⟨rfl, h⟩)
  | succ n ih =>
    have hnext : va + (n + 1) * pgsize = va + pgsize + n * pgsize := by
      rw [Nat.add_mul, Nat.one_mul]
      omega
    rw [hnext] at hend ⊢
    have hmax := trapframeVa_lt_maxva
    have hlt := trapframeVa_lt
    have hpos : 0 < pgsize := by decide
    have hmod : (va + pgsize) % pgsize = 0 := by rw [Nat.add_mod_right, hva]
    obtain ⟨hspace, htr, hfoot, hsame⟩ := h.parent hold hdisj
    have hskip : translate s.mem old va = none → Runs E (uvmcopyFrom img old new n (va + pgsize)) s
        fun r s' => (r = 0 ∧ Copied img s0 s' old new (va + pgsize + n * pgsize)) ∨
          (r = -1 ∧ Reshapes img s0 s' new (translate s0.mem new) ∅ ∅) := fun hnone =>
      ih (h.skip hnew hva (by omega) ((htr va).symm.trans hnone)) hmod hend
    rw [uvmcopyFrom]
    refine .of_eq_bind (walk_false s (by omega)) ?_
    rcases pteSlot_cases hspace.table va with ⟨hslot, hnone⟩ | ⟨pt, hpt, hslot, hne⟩
    · rw [if_pos hslot]
      exact hskip hnone
    · rw [hslot, if_neg hne]
      refine .gets_bind ?_
      have hentry := translate_of_slot hpt
      by_cases hv : hasFlag (Bytes.num s.mem (pteAddr pt (px 0 va)) 8) pteV = false
      · rw [if_pos hv]
        rw [hv, if_neg Bool.false_ne_true] at hentry
        exact hskip hentry
      · rw [if_neg hv]
        rw [if_pos (by simpa using hv)] at hentry
        generalize Bytes.num s.mem (pteAddr pt (px 0 va)) 8 = e at hentry ⊢
        have he : translate s0.mem old va = some e := (htr va).symm.trans hentry
        have hmem : pte2pa e ∈ footprint s0.mem old := .inr ⟨va, by omega, e, he, rfl⟩
        have hundo : ∀ s1, Reshapes img s s1 new (translate s.mem new) ∅ ∅ →
            Runs E (uvmunmap img new 0 (va / pgsize) true >>= fun _ => pure (-1)) s1
              fun r s' => (r = 0 ∧ Copied img s0 s' old new (va + pgsize + n * pgsize)) ∨
                (r = -1 ∧ Reshapes img s0 s' new (translate s0.mem new) ∅ ∅) := fun s1 h1 =>
          (h.undo_runs hnew (by omega) hva h1).mono fun _ _ hr => .inr hr
        refine mapFresh_runs h.reshapes.space hva (by omega) ?_ (pteFlags_lt e) hundo hundo ?_
        · rw [h.above va (by omega) le_rfl, bare_child hnew (by omega)]
        · intro r s1 s2 hr hfree hm1 hm2 hbytes
          refine ih (h.extend hnew hva (by omega) he hr hfree hm2 fun k hk => ?_) hmod hend
          -- The page of the parent is in use, so neither allocation nor mapping has touched it.
          have hin : InPage (pte2pa e) (pte2pa e + k) := ⟨by omega, by omega⟩
          rw [hbytes k hk, hm1.same hspace.owns (fun a _ => Set.notMem_empty a)
            (hfoot.symm ▸ hmem) _ hin, hsame _ hmem _ hin]

/-- `uvmcopy` copies the address space of the parent, or leaves the child without user pages. -/
theorem uvmcopy_runs :
    Runs E (uvmcopy img old new sz) s0 fun r s' =>
      (r = 0 ∧ Copied img s0 s' old new (pgroundup sz) ∧ ProcSpace img s' new tf' sz) ∨
      (r = -1 ∧ Reshapes img s0 s' new (translate s0.mem new) ∅ ∅) := by
  have hup := pgroundup_eq (hold.sz_le.trans trapframeVa_lt_maxva.le)
  have hturns : 0 + (sz + pgsize - 1) / pgsize * pgsize = pgroundup sz := by
    simp only [pgsize] at *
    omega
  have hstart : Copied img s0 s0 old new 0 :=
    ⟨Reshapes.refl hnew.space, fun _ _ _ => rfl, fun _ h => absurd h (Nat.not_lt_zero _),
      fun _ h => absurd h (Nat.not_lt_zero _)⟩
  refine (uvmcopyFrom_runs hold hnew hdisj hstart rfl (by rw [hturns]; exact hold.up_le)).mono ?_
  rw [hturns]
  rintro r s' (⟨rfl, h⟩ | h)
  · refine .inl ⟨rfl, h, hnew.of_reshapes h.reshapes hold.sz_le ?_ ?_⟩
    · intro va h1 h2
      rw [h.above va (h2.trans trapframeVa_lt) h1, bare_child hnew h2]
    · exact fun va hva hge => h.above va hva (hold.up_le.trans hge)
  · exact .inr h

end Copy

/-! ## Isolation -/

/-- A store by user code through a page table; it has no effect where the page table does not
allow it. -/
def userStore (root : ℕ) (s : Vm) (w : ℕ × UInt8) : Vm :=
  match translate s.mem root w.1 with
  | none => s
  | some e =>
    if w.1 < maxva ∧ hasFlag e pteU = true ∧ hasFlag e pteW = true then
      s.setMem (Bytes.blit s.mem (pte2pa e + w.1 % pgsize) 1 fun _ => w.2)
    else s

/-- A load by user code through a page table. -/
def userLoad (mem : ℕ → UInt8) (root va : ℕ) : Option UInt8 :=
  match translate mem root va with
  | none => none
  | some e => if va < maxva ∧ hasFlag e pteU = true then
    some (mem (pte2pa e + va % pgsize)) else none

/-- A store by user code overwrites one byte of its user memory, or none. -/
theorem userStore_writes {root : ℕ} (h : ProcSpace img s root tf sz) (w : ℕ × UInt8) :
    ∃ n, UserWrites img s (userStore root s w) root tf sz w.1 n fun _ => w.2 := by
  cases he : translate s.mem root w.1 with
  | none =>
    refine ⟨0, ?_⟩
    rw [userStore, he]
    exact UserWrites.refl h
  | some e =>
    by_cases hok : w.1 < maxva ∧ hasFlag e pteU = true ∧ hasFlag e pteW = true
    · refine ⟨1, ?_⟩
      have hmax : maxva < 2 ^ 39 := by decide
      have hlt := h.lt_of_user (hok.1.trans hmax) he hok.2.1
      have hoff : w.1 % pgsize < pgsize := Nat.mod_lt _ (by decide)
      refine UserWrites.of_move h ⟨hlt, he, hok.2.1⟩ hok.2.2 hoff ?_
      simp only [userStore, he, if_pos hok]
    · refine ⟨0, ?_⟩
      simp only [userStore, he, if_neg hok]
      exact UserWrites.refl h

/-- A process that shares no page with another does not see its stores. -/
theorem userStore_apart {a b sz' : ℕ} (ha : ProcSpace img s a tf sz)
    (hb : ProcSpace img s b tf' sz')
    (hdisj : ∀ x ∈ footprint s.mem b, x ∉ footprint s.mem a) (w : ℕ × UInt8) :
    ProcSpace img (userStore a s w) a tf sz ∧ ProcSpace img (userStore a s w) b tf' sz' ∧
      (∀ x ∈ footprint (userStore a s w).mem b, x ∉ footprint (userStore a s w).mem a) ∧
      ∀ va, userLoad (userStore a s w).mem b va = userLoad s.mem b va := by
  obtain ⟨n, hw⟩ := userStore_writes ha w
  generalize userStore a s w = t at hw ⊢
  obtain ⟨hspace, htr, -, hfoot, hsame⟩ := hb.space.frame hw.moves hdisj
  refine ⟨hw.proc, ⟨hspace, hb.sz_le, fun x h1 h2 => (htr x).trans (hb.user x h1 h2),
    fun x h1 h2 => (htr x).trans (hb.kernel x h1 h2)⟩, ?_, fun va => ?_⟩
  · rw [hfoot]
    exact hw.moves.apart hb.space.owns hdisj
  · rw [userLoad, userLoad, htr va]
    cases he : translate s.mem b va with
    | none => rfl
    | some e =>
      by_cases hu : va < maxva ∧ hasFlag e pteU = true
      · have hmax : maxva < 2 ^ 39 := by decide
        have hlt := hb.lt_of_user (hu.1.trans hmax) he hu.2
        have hoff : va % pgsize < pgsize := Nat.mod_lt _ (by decide)
        have hbyte := hsame (pte2pa e) (.inr ⟨va, hlt, e, he, rfl⟩) (pte2pa e + va % pgsize)
          ⟨by omega, by omega⟩
        simp only [if_pos hu, hbyte]
      · simp only [if_neg hu]

/-- No sequence of stores through one page table is seen through the other. -/
theorem userStore_foldl_apart {a b sz' : ℕ} (ha : ProcSpace img s a tf sz)
    (hb : ProcSpace img s b tf' sz')
    (hdisj : ∀ x ∈ footprint s.mem b, x ∉ footprint s.mem a) (stores : List (ℕ × UInt8)) (va : ℕ) :
    userLoad (stores.foldl (userStore a) s).mem b va = userLoad s.mem b va := by
  induction stores generalizing s with
  | nil => rfl
  | cons w stores ih =>
    obtain ⟨ha', hb', hdisj', hload⟩ := userStore_apart ha hb hdisj w
    exact (ih ha' hb' hdisj').trans (hload va)

/-- **Fork copies memory exactly and in isolation.** `uvmcopy` returns and leaves the parent as
it was. If it returns 0, the child maps what the parent maps, with the same flags and the same
bytes, in pages that were free and belong to no process, and no later stores through one of the
two page tables are seen through the other. If it returns -1, the child maps no user page and
the pages taken are free again, except for page tables of the child. -/
theorem uvmcopy_exact (hold : ProcSpace img s old tf sz) (hnew : ProcSpace img s new tf' 0)
    (hdisj : ∀ a ∈ footprint s.mem old, a ∉ footprint s.mem new) :
    ∃ r s', uvmcopy img old new sz s = .ok r s' ∧ ProcSpace img s' old tf sz ∧
      (∀ va, translate s'.mem old va = translate s.mem old va) ∧
      (∀ a ∈ footprint s.mem old, SamePage s s' a) ∧
      ((r = 0 ∧ ProcSpace img s' new tf' sz ∧
        (∀ va < pgroundup sz, translate s.mem old va = none → translate s'.mem new va = none) ∧
        (∀ va < pgroundup sz, ∀ e, translate s.mem old va = some e →
          ∃ e', translate s'.mem new va = some e' ∧ pteFlags e' = pteFlags e ∧
            (∀ k < pgsize, s'.mem (pte2pa e' + k) = s'.mem (pte2pa e + k)) ∧
            ∀ other tf'' sz'', ProcSpace img s other tf'' sz'' →
              pte2pa e' ∉ footprint s.mem other) ∧
        ∀ (stores : List (ℕ × UInt8)) (va : ℕ),
          userLoad (stores.foldl (userStore old) s').mem new va = userLoad s'.mem new va ∧
          userLoad (stores.foldl (userStore new) s').mem old va = userLoad s'.mem old va) ∨
      (r = -1 ∧ (∀ va < pgroundup sz, translate s'.mem new va = none) ∧
        tables s.mem new ⊆ tables s'.mem new ∧
        ∀ a, a ∈ tables s'.mem new ∨ a ∈ s'.freelist ↔ a ∈ tables s.mem new ∨ a ∈ s.freelist)) := by
  have hruns : Runs (fun _ => False) (uvmcopy img old new sz) s _ :=
    uvmcopy_runs hold hnew hdisj
  obtain ⟨r, s', heq, hpost⟩ := hruns.returns
  -- Either way the child's pages are all that has changed.
  have hmoves : Moves img s s' (footprint s.mem new) (footprint s'.mem new) := by
    rcases hpost with ⟨-, h, -⟩ | ⟨-, h⟩
    · exact h.reshapes.footprint_moves
    · exact h.footprint_moves
  obtain ⟨hspace, htr, -, hfoot, hsame⟩ := hold.space.frame hmoves hdisj
  have hparent : ProcSpace img s' old tf sz :=
    ⟨hspace, hold.sz_le, fun x h1 h2 => (htr x).trans (hold.user x h1 h2),
      fun x h1 h2 => (htr x).trans (hold.kernel x h1 h2)⟩
  refine ⟨r, s', heq, hparent, htr, hsame, ?_⟩
  rcases hpost with ⟨rfl, h, hchild⟩ | ⟨rfl, h⟩
  · have hapart : ∀ a ∈ footprint s'.mem old, a ∉ footprint s'.mem new := by
      rw [hfoot]
      exact hmoves.apart hold.space.owns hdisj
    refine .inl ⟨rfl, hchild, h.hole, fun va hva e he => ?_, fun stores va => ⟨?_, ?_⟩⟩
    · obtain ⟨r, hfree, hr, htr', hbytes⟩ := h.page va hva e he
      have hvalid : hasFlag e pteV = true := translate_valid he
      obtain ⟨hpa, hflags⟩ := pteFor_spec hr.lt hr.mod (pteFlags_lt e)
      have hlt := hva.trans_le hold.up_le
      refine ⟨_, htr', by rw [hflags, pteFlags_or_valid hvalid], fun k hk => ?_,
        fun other tf'' sz'' hother => ?_⟩
      · rw [hpa, hbytes k hk, hsame _ (.inr ⟨va, hlt, e, he, rfl⟩) _ ⟨by omega, by omega⟩]
      · rw [hpa]
        exact fun hmem => hother.space.owns.inUse r hmem hfree
    · exact userStore_foldl_apart hparent hchild (fun x hx hx' => hapart x hx' hx) stores va
    · exact userStore_foldl_apart hchild hparent hapart stores va
  · have hchild : ProcSpace img s' new tf' 0 :=
      hnew.of_reshapes h hnew.sz_le hnew.user fun _ _ _ => rfl
    refine .inr ⟨rfl, fun va hva => bare_child hchild (hva.trans_le hold.up_le), h.sub, ?_⟩
    rw [← footprint_child hnew, ← footprint_child hchild]
    exact hmoves.total

/-- The trapframe of the second process. -/
def childTrapframe : ℕ := kernbase + 14 * pgsize

/-- The page table of the second process. -/
def childRoot : ℕ := kernbase + 8 * pgsize

/-- The first process gets a page table and writes to its memory. -/
def bootWrite : VmM ℤ := do
  let root ← procPagetable tinyImage bootTrapframe
  copyout tinyImage ⟨pgsize, root⟩ root 10 (fun _ => 3) 2

/-- Then the second process gets a page table. -/
def bootChild : VmM ℕ := do
  let _ ← bootWrite
  procPagetable tinyImage childTrapframe

theorem bootWrite_result : resultOf 7 (bootWrite bootVm) = 0 := rfl

theorem bootChild_result : resultOf 7 (bootChild bootVm) = childRoot := by decide +kernel

theorem bootCopy_result :
    resultOf 7 ((bootChild >>= fun child => uvmcopy tinyImage bootRoot child pgsize)
      bootVm) = 0 := by
  decide +kernel

theorem bootWrite_proc :
    ∃ s r, bootWrite bootVm = .ok r s ∧ ProcSpace tinyImage s bootRoot bootTrapframe pgsize ∧
      ∃ e, UserMapped s.mem bootRoot 10 e := by
  obtain ⟨s1, heq1, h1⟩ := bootVm_proc (le_refl pgsize)
  have hout : Runs (fun _ => False)
      (copyout tinyImage ⟨pgsize, bootRoot⟩ bootRoot 10 (fun _ => 3) 2) s1 _ :=
    copyoutFrom_runs h1 (.inl rfl) le_rfl
  obtain ⟨r, s2, heq2, hpost⟩ := hout.returns
  have heq : bootWrite bootVm = .ok r s2 := by rw [bootWrite, bind_apply, heq1, ok_bind, heq2]
  have hr := bootWrite_result
  rw [heq, resultOf] at hr
  obtain ⟨-, hw⟩ := hpost.resolve_right fun h => absurd (hr.symm.trans h.1) (by decide)
  obtain ⟨e, he, -⟩ := hw.written 10 le_rfl (by decide)
  exact ⟨s2, r, heq, hw.proc, e, he⟩

theorem bootChild_proc :
    ∃ s, bootChild bootVm = .ok childRoot s ∧
      ProcSpace tinyImage s bootRoot bootTrapframe pgsize ∧
      ProcSpace tinyImage s childRoot childTrapframe 0 ∧
      (∀ a ∈ footprint s.mem bootRoot, a ∉ footprint s.mem childRoot) ∧
      ∃ e, translate s.mem bootRoot 10 = some e := by
  obtain ⟨s2, r, heq2, h₂, e, he⟩ := bootWrite_proc
  have hpt : Runs (fun _ => False) (procPagetable tinyImage childTrapframe) s2 _ :=
    procPagetable_runs (h₂.space.owns.mono (Set.empty_subset _))
      (⟨by decide, by decide, by decide⟩ : IsPage tinyImage childTrapframe)
  obtain ⟨root, s3, heq3, hpost⟩ := hpt.returns
  have heq : bootChild bootVm = .ok root s3 := by rw [bootChild, bind_apply, heq2, ok_bind, heq3]
  have hr := bootChild_result
  rw [heq, resultOf] at hr
  subst hr
  obtain ⟨-, hchild, hm⟩ := hpost.resolve_left fun h => absurd h.1 (by decide)
  have hempty : ∀ a ∈ footprint s2.mem bootRoot, a ∉ (∅ : Set ℕ) := fun a _ => Set.notMem_empty a
  obtain ⟨hspace, htr, -, hfoot, -⟩ := h₂.space.frame hm hempty
  refine ⟨s3, heq, ⟨hspace, h₂.sz_le, fun x h1 h2 => (htr x).trans (h₂.user x h1 h2),
    fun x h1 h2 => (htr x).trans (h₂.kernel x h1 h2)⟩, hchild, ?_, e, (htr 10).trans he.2.1⟩
  rw [hfoot]
  exact hm.apart h₂.space.owns hempty

/-- The second process gets a copy of the memory of the first. -/
theorem bootVm_uvmcopy_exact :
    ∃ s s' e, ProcSpace tinyImage s bootRoot bootTrapframe pgsize ∧
      ProcSpace tinyImage s childRoot childTrapframe 0 ∧
      translate s.mem bootRoot 10 = some e ∧
      uvmcopy tinyImage bootRoot childRoot pgsize s = .ok 0 s' ∧
      ∃ e', translate s'.mem childRoot 10 = some e' ∧ pteFlags e' = pteFlags e := by
  obtain ⟨s, heq, hparent, hchild, hdisj, e, he⟩ := bootChild_proc
  obtain ⟨r, s', hrun, -, -, -, hcopy⟩ := uvmcopy_exact hparent hchild hdisj
  have hr := bootCopy_result
  rw [bind_apply, heq, ok_bind, hrun, resultOf] at hr
  subst hr
  obtain ⟨-, -, -, hpages, -⟩ := hcopy.resolve_right fun h => absurd h.1 (by decide)
  obtain ⟨e', he', hflags, -⟩ := hpages 10 (by decide) e he
  exact ⟨s, s', e, hparent, hchild, he, hrun, e', he', hflags⟩

end RiscvKernel
