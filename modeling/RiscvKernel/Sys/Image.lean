import RiscvKernel.Sys.Memory

/-!
# The image of a program

`kexec` builds the address space of a program in a page table that no process uses yet. While
it is built there are no holes in it, so that its size is bounded by physical memory, and every
page of it can be reached by the copying functions.
-/

namespace RiscvKernel.Sys

open Threads
open Threads.Seq (Runs)

variable {img : KernelImage} {s s' s'' : Vm} {root tf sz va : ℕ} {E : String → Prop}

/-- The address space of a program that is being built. -/
structure Building (img : KernelImage) (s : Vm) (root tf sz : ℕ) : Prop where
  /-- It is the address space of a process. -/
  proc : ProcSpace img s root tf sz
  /-- Its memory is mapped for user code. -/
  mapped : ∀ va < pgroundup sz, ∃ e, UserMapped s.mem root va e

/-- All pages are there. -/
theorem Building.dense (h : Building img s root tf sz) :
    ∀ va < pgroundup sz, translate s.mem root va ≠ none := by
  intro va hva
  obtain ⟨e, -, he, -⟩ := h.mapped va hva
  rw [he]
  exact Option.some_ne_none e

/-- An empty address space is being built. -/
theorem Building.empty (h : ProcSpace img s root tf 0) : Building img s root tf 0 :=
  ⟨h, fun _ hva => absurd hva (Nat.not_lt_zero _)⟩

theorem pgroundup_pgroundup (h : sz ≤ trapframeVa) : pgroundup (pgroundup sz) = pgroundup sz := by
  have hmax := trapframeVa_lt_maxva
  have hup := pgroundup_le h trapframeVa_mod hmax.le
  have h1 := pgroundup_eq (show sz ≤ maxva by omega)
  have h2 := pgroundup_eq (show pgroundup sz ≤ maxva by omega)
  simp only [pgsize] at *
  omega

/-- The size is rounded up. -/
theorem Building.round (h : Building img s root tf sz) :
    Building img s root tf (pgroundup sz) := by
  have hround := pgroundup_pgroundup h.proc.sz_le
  refine ⟨⟨h.proc.space, h.proc.up_le, ?_, h.proc.kernel⟩, ?_⟩
  · rw [hround]
    exact h.proc.user
  · rw [hround]
    exact h.mapped

/-- A step of the building: pages only move between the address space and the allocator. -/
structure Builds (img : KernelImage) (s s' : Vm) (root tf sz : ℕ) : Prop where
  /-- What has been built. -/
  building : Building img s' root tf sz
  /-- Pages are conserved. -/
  moves : Moves img s s' (footprint s.mem root) (footprint s'.mem root)

theorem Building.stay (h : Building img s root tf sz) : Builds img s s root tf sz :=
  ⟨h, Moves.refl h.proc.space.owns⟩

theorem Builds.trans {sz' : ℕ} (h : Builds img s s' root tf sz)
    (h' : Builds img s' s'' root tf sz') : Builds img s s'' root tf sz' :=
  ⟨h'.building, h.moves.trans h'.moves⟩

/-- A change of the bytes of a user page. -/
theorem Building.write {e n : ℕ} (h : Building img s root tf sz)
    (he : UserMapped s.mem root va e) (hn : n ≤ pgsize) (src : ℕ → UInt8)
    (hs' : s' = s.setMem (Bytes.blit s.mem (pte2pa e) n src)) : Builds img s s' root tf sz := by
  have hmem : s'.mem = Bytes.blit s.mem (pte2pa e) n src := by rw [hs', Vm.setMem]
  have hfree : s'.freelist = s.freelist := by rw [hs', Vm.setMem]
  have hpages : pte2pa e ∈ pagesOf (translate s.mem root) := ⟨va, he.1, e, he.2.1, rfl⟩
  have hout : ∀ x, ¬ InPage (pte2pa e) x → s'.mem x = s.mem x := by
    intro x hx
    rw [hmem]
    refine Bytes.blit_outside _ _ ?_
    unfold InPage at hx
    omega
  obtain ⟨hspace, htr, hfoot⟩ := h.proc.space.change_user hpages hfree hout
  refine ⟨⟨⟨hspace, h.proc.sz_le, fun x h1 h2 => (htr x).trans (h.proc.user x h1 h2),
    fun x h1 h2 => (htr x).trans (h.proc.kernel x h1 h2)⟩, fun x hx => ?_⟩, ?_⟩
  · obtain ⟨e', hlt, he', hu⟩ := h.mapped x hx
    exact ⟨e', hlt, (htr x).trans he', hu⟩
  · rw [hfoot]
    exact Moves.change h.proc.space.owns (.inr hpages) hfree hout

/-- `uvmalloc` on an address space that is being built. A size of 0 tells that nothing is
there. -/
theorem Building.uvmalloc_runs {newsz xperm : ℕ} (h : Building img s root tf sz)
    (hperm : (pteR ||| pteU ||| xperm) < 2 ^ 10) :
    Runs E (uvmalloc img root sz newsz xperm) s fun r s' =>
      (r = 0 ∧ Builds img s s' root tf sz) ∨
      (r = max sz newsz ∧ Builds img s s' root tf r ∧
        ∀ x, pgroundup sz ≤ x → x < newsz → ∃ a, IsPage img a ∧
          translate s'.mem root x = some (pteFor a (pteR ||| pteU ||| xperm))) := by
  refine (RiscvKernel.uvmalloc_runs h.proc.space h.proc.sz_le hperm h.proc.user
    (.inr h.dense)).mono ?_
  rintro r s' (⟨hlt, hr, hs'⟩ | ⟨hle, hr, htop, hf⟩ | ⟨hr, hm⟩)
  · have hup := (pgroundup_eq (h.proc.sz_le.trans trapframeVa_lt_maxva.le)).2.1
    rw [hs', hr]
    exact .inr ⟨by omega, h.stay, fun x h1 h2 => by omega⟩
  · have hnew := (pgroundup_eq (htop.trans trapframeVa_lt_maxva.le)).2.1
    refine .inr ⟨by omega, ⟨?_, hf.reshapes.footprint_moves⟩, fun x h1 h2 => ?_⟩
    swap
    · obtain ⟨a, ha, he, -⟩ := hf.inside x h1 (by omega)
      exact ⟨a, ha, he⟩
    rw [hr]
    have hmono := pgroundup_mono hle htop
    have hup := pgroundup_le htop trapframeVa_mod trapframeVa_lt_maxva.le
    refine ⟨h.proc.of_reshapes hf.reshapes htop (fun x h1 h2 => ?_) (fun x h1 h2 => ?_),
      fun x hx => ?_⟩
    · rw [hf.outside x (h2.trans trapframeVa_lt) (by omega)]
      exact h.proc.user x (by omega) h2
    · exact hf.outside x h1 (by omega)
    · by_cases hlow : x < pgroundup sz
      · obtain ⟨e, hlt, he, hu⟩ := h.mapped x hlow
        refine ⟨e, hlt, ?_, hu⟩
        rw [hf.outside x (hlt.trans trapframeVa_lt) (by omega)]
        exact he
      · obtain ⟨a, -, he, -⟩ := hf.inside x (by omega) hx
        refine ⟨_, hx.trans_le hup, he, ?_⟩
        rw [hasFlag_pteFor_or a hperm (by decide)]
        simp [hasFlag_union, show hasFlag pteU pteU = true by decide]
  · refine .inl ⟨hr, ?_, hm.footprint_moves⟩
    have htr := hm.translate_eq
    refine ⟨h.proc.of_reshapes hm h.proc.sz_le h.proc.user (fun _ _ _ => rfl), fun x hx => ?_⟩
    obtain ⟨e, hlt, he, hu⟩ := h.mapped x hx
    exact ⟨e, hlt, by rw [htr, he], hu⟩

/-- The loop of `loadseg` over mapped pages. -/
theorem loadsegFrom_runs {file : ExecFile} {off len n i : ℕ} (h : Building img s root tf sz)
    (hend : va + len ≤ sz) (hmore : ∀ k < n, i + k * pgsize < len) :
    Runs E (loadsegFrom root va file off len n i) s fun _ s' =>
      Builds img s s' root tf sz := by
  induction n generalizing s i with
  | zero => exact .pure h.stay
  | succ n ih =>
    have hlt := hmore 0 (Nat.succ_pos n)
    have hle := h.proc.sz_le
    have htop := trapframeVa_lt
    have hup := (pgroundup_eq (hle.trans trapframeVa_lt_maxva.le)).2.1
    obtain ⟨e, he⟩ := h.mapped (va + i) (by omega)
    have hpage := h.proc.space.user.page _ he.1 e he.2.1
    have hmod : (va + i) % 2 ^ 64 = va + i := Nat.mod_eq_of_lt (by omega)
    have hwalk : walkaddr root ((va + i) % 2 ^ 64) s = .ok (pte2pa e) s := by
      have hmax := he.1.trans trapframeVa_lt_maxva
      rw [hmod, walkaddr_eq h.proc.space.table, if_neg (by omega), he.2.1, userPa, if_pos he.2.2]
    refine .of_eq_bind hwalk ?_
    rw [if_neg hpage.pos]
    dsimp only
    generalize hbytes : file.readi (off + i) (min (len - i) pgsize) = bytes
    have hlen : bytes.length ≤ pgsize :=
      hbytes ▸ (file.length_le _ _).trans (min_le_right _ _)
    refine .modify_bind ?_
    have hwrite := h.write he hlen (fun k => bytes.getD k 0) rfl
    split
    · exact .pure hwrite
    · refine (ih hwrite.building fun k hk => ?_).mono fun r s' hr => hwrite.trans hr
      have hk' := hmore (k + 1) (by omega)
      rw [Nat.succ_mul] at hk'
      omega

/-- `loadseg` over mapped pages. -/
theorem loadseg_runs {file : ExecFile} {off len : ℕ} (h : Building img s root tf sz)
    (hend : va + len ≤ sz) :
    Runs E (loadseg root va file off len) s fun _ s' => Builds img s s' root tf sz := by
  refine loadsegFrom_runs h hend fun k hk => ?_
  simp only [pgsize] at *
  omega

theorem flags2perm_lt (flags : ℕ) : (pteR ||| pteU ||| flags2perm flags) < 2 ^ 10 := by
  unfold flags2perm
  split <;> split <;> decide

theorem field_lt (bytes : List UInt8) (off : ℕ) : field bytes off 8 < 2 ^ 64 :=
  Bytes.num_lt _ off 8

/-- The program headers. The size that is returned is the size of what has been built. -/
theorem loadProgram_runs {file : ExecFile} {n off : ℕ} (h : Building img s root tf sz) :
    Runs E (loadProgram img root file n off sz) s fun r s' =>
      Builds img s s' root tf r.2 := by
  induction n generalizing s off sz with
  | zero => exact .pure h.stay
  | succ n ih =>
    unfold loadProgram
    generalize file.readi off proghdrSize = ph
    by_cases h1 : ph.length ≠ proghdrSize
    · rw [if_pos h1]
      exact .pure h.stay
    rw [if_neg h1]
    by_cases h2 : field ph 0 4 ≠ 1
    · rw [if_pos h2]
      exact ih h
    rw [if_neg h2]
    by_cases h3 : field ph 40 8 < field ph 32 8
    · rw [if_pos h3]
      exact .pure h.stay
    rw [if_neg h3]
    by_cases h4 : (field ph 16 8 + field ph 40 8) % 2 ^ 64 < field ph 16 8
    · rw [if_pos h4]
      exact .pure h.stay
    rw [if_neg h4]
    by_cases h5 : field ph 16 8 % pgsize ≠ 0
    · rw [if_pos h5]
      exact .pure h.stay
    rw [if_neg h5]
    -- The end of the segment does not wrap around, and the file part is a part of it.
    have hwrap : (field ph 16 8 + field ph 40 8) % 2 ^ 64 = field ph 16 8 + field ph 40 8 := by
      have hm := field_lt ph 40
      omega
    have hfile := Nat.mod_le (field ph 32 8) (2 ^ 32)
    refine (h.uvmalloc_runs (flags2perm_lt _)).bind fun sz1 s1 hb => ?_
    by_cases hz : sz1 = 0
    · rw [if_pos hz]
      rcases hb with ⟨-, hb⟩ | ⟨hsz1, hb, -⟩
      · exact .pure hb
      · have hsz : sz = sz1 := by omega
        rw [hsz]
        exact .pure hb
    · rw [if_neg hz]
      obtain ⟨hz', -⟩ | ⟨hsz1, hb, -⟩ := hb
      · exact absurd hz' hz
      · refine (loadseg_runs hb.building (by omega)).bind fun r s2 h2 => ?_
        by_cases hr : r < 0
        · rw [if_pos hr]
          exact .pure (hb.trans h2)
        · rw [if_neg hr]
          exact (ih h2.building).mono fun r s3 h3 => (hb.trans h2).trans h3

end RiscvKernel.Sys
