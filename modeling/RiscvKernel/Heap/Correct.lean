import RiscvKernel.Heap.Malloc
import Mathlib.Data.List.Pairwise

/-!
# The allocator is correct

Between the calls of a program the blocks it has and the free blocks lie apart and are together
the memory obtained from the kernel. Every call keeps this and ends.
-/

namespace RiscvKernel.Heap

open Threads Function
open Threads.Seq (Runs bind_apply ok_bind gets_apply)
open List (forall_mem_nil mem_append mem_append_left mem_append_right mem_cons mem_map)

variable {s s' : State} {fs fs' : List Block} {b c : Block} {a q n nbytes : ℕ}

/-- The byte `x` has been obtained from the kernel. -/
def Obtained (s : State) (x : ℕ) : Prop := ∃ g ∈ s.hist.got, g.1 ≤ x ∧ x < g.1 + g.2

/-- The allocator with the free blocks `fs`. -/
structure Sound (s : State) (fs : List Block) : Prop where
  /-- The memory is bounded. -/
  bounds : Bounds s
  /-- The free blocks form a ring. -/
  ring : Ring s fs
  /-- `freep` is in the ring. -/
  freep : s.freep ∈ s.base :: fs.map Block.addr
  /-- The break is aligned. -/
  aligned : s.brk % headerSize = 0
  /-- So are the blocks. -/
  blocks : ∀ b ∈ fs ++ s.hist.live, b.addr % headerSize = 0
  /-- The header of a block in use holds its size. -/
  size : ∀ b ∈ s.hist.live, (s.hdr b.addr).size = b.size
  /-- It lies above `base`. -/
  above : ∀ b ∈ s.hist.live, s.base + headerSize ≤ b.addr
  /-- It lies below the break. -/
  below : ∀ b ∈ s.hist.live, b.stop ≤ s.brk
  /-- It has the bytes it was allocated for. -/
  room : ∀ b ∈ s.hist.live, b.addr + headerSize + s.hist.asked b.addr ≤ b.stop
  /-- The blocks in use lie apart. -/
  apart : s.hist.live.Pairwise fun b c => Ranges.Apart b.range c.range
  /-- They lie apart from the free blocks. -/
  free : ∀ b ∈ fs, ∀ c ∈ s.hist.live, Ranges.Apart b.range c.range
  /-- All blocks together are the memory obtained from the kernel. -/
  cover : ∀ x, Covers fs x ∨ Covers s.hist.live x ↔ Obtained s x

/-- The allocator before its first use. -/
structure Unused (s : State) : Prop where
  /-- The memory is bounded. -/
  bounds : Bounds s
  /-- There is no ring yet. -/
  freep : s.freep = 0
  /-- The break is aligned. -/
  aligned : s.brk % headerSize = 0
  /-- Nothing has been handed out. -/
  live : s.hist.live = []
  /-- Nothing has been obtained. -/
  got : s.hist.got = []

/-- What holds between the calls of a program. -/
def Inv (s : State) : Prop := Unused s ∨ ∃ fs, Sound s fs

/-- Blocks do not overlap. -/
theorem apart_iff : Ranges.Apart b.range c.range ↔ b.stop ≤ c.addr ∨ c.stop ≤ b.addr := Iff.rfl

/-- Two different blocks in use lie apart. -/
theorem Sound.apart_of_ne (h : Sound s fs) (hb : b ∈ s.hist.live) (hc : c ∈ s.hist.live)
    (hne : b ≠ c) : b.stop ≤ c.addr ∨ c.stop ≤ b.addr := by
  have : Std.Symm fun b c : Block => Ranges.Apart b.range c.range := ⟨fun _ _ => Or.symm⟩
  exact h.apart.forall hb hc hne

/-- No live block is empty. -/
theorem Sound.pos (h : Sound s fs) (hc : c ∈ s.hist.live) : c.addr < c.stop := by
  have := h.room c hc
  unfold headerSize at this
  omega

/-- No block in use begins where a free block does. -/
theorem Sound.live_ne (h : Sound s fs) (hc : c ∈ s.hist.live) :
    c.addr ∉ s.base :: fs.map Block.addr := by
  intro hmem
  rcases mem_cons.mp hmem with heq | hmem
  · have := h.above c hc
    unfold headerSize at this
    omega
  · obtain ⟨b, hb, heq⟩ := mem_map.mp hmem
    have hlt := Block.addr_lt_stop (h.ring.pos b hb)
    have hclt := h.pos hc
    have := apart_iff.mp (h.free b hb c hc)
    omega

/-- The bytes of a block in use are not free. -/
theorem Sound.not_covers (h : Sound s fs) (hc : c ∈ s.hist.live) {x : ℕ} (hx : c.addr ≤ x)
    (hx' : x < c.stop) : ¬ Covers fs x := by
  rintro ⟨b, hb, hle, hlt⟩
  have := apart_iff.mp (h.free b hb c hc)
  omega

/-- Ranges without a common byte lie apart. -/
theorem apart_of_covers (hb : b ∈ fs) (hpos : b.addr < b.stop) (hc : c.addr < c.stop)
    (h : ∀ x, c.addr ≤ x → x < c.stop → ¬ Covers fs x) : Ranges.Apart b.range c.range := by
  rw [apart_iff]
  by_contra hne
  have hle : max b.addr c.addr < b.stop ∧ max b.addr c.addr < c.stop := by omega
  exact h (max b.addr c.addr) (le_max_right _ _) hle.2 ⟨b, hb, le_max_left _ _, hle.1⟩

/-! ## The calls -/

/-- The state after a block has been handed out. -/
def handedOut (s : State) (q n nbytes : ℕ) : State :=
  { s with hist := { s.hist with
    live := ⟨q, n⟩ :: s.hist.live
    asked := update s.hist.asked q nbytes } }

/-- A free block is handed out. -/
theorem Sound.take (h : Sound s fs) (ht : Taken s s' fs fs' q n)
    (hroom : headerSize + nbytes ≤ headerSize * n) : Sound (handedOut s' q n nbytes) fs' := by
  have hbase : s'.base = s.base := by rw [ht.state]
  have hbrk : s'.brk = s.brk := by rw [ht.state]
  have hhist : s'.hist = s.hist := by rw [ht.state]
  obtain ⟨e, he, j, hq, hstop⟩ := ht.inside
  have hqlt : q < q + headerSize * n := by
    unfold headerSize at hroom ⊢
    omega
  have hqin : e.addr ≤ q := by omega
  -- The block lies in a free block, and so apart from those in use.
  have hnew : ∀ c ∈ s.hist.live, Ranges.Apart (⟨q, n⟩ : Block).range c.range := by
    intro c hc
    have hclt := h.pos hc
    have := apart_iff.mp (h.free e he c hc)
    rw [apart_iff]
    change q + headerSize * n ≤ c.addr ∨ c.stop ≤ q
    omega
  have hne : ∀ c ∈ s.hist.live, c.addr ≠ q := by
    intro c hc
    have hclt := h.pos hc
    have := apart_iff.mp (hnew c hc)
    change q + headerSize * n ≤ c.addr ∨ c.stop ≤ q at this
    omega
  have hlive : ∀ {P : Block → Prop}, P ⟨q, n⟩ → (∀ c ∈ s.hist.live, P c) →
      ∀ c ∈ (handedOut s' q n nbytes).hist.live, P c := by
    intro P hP hall c hc
    rcases mem_cons.mp hc with rfl | hc
    · exact hP
    · exact hall c (hhist ▸ hc)
  constructor
  · have hb := h.bounds
    rw [ht.state]
    exact ⟨hb.base_pos, hb.base_le, hb.brk_le, hb.limit_le⟩
  · have hr := ht.ring
    exact ⟨hr.leads, hr.size, hr.baseSize, hr.sorted, hr.pos, hr.above, hr.below⟩
  · change s'.freep ∈ s'.base :: _
    rw [hbase]
    exact ht.freep
  · change s'.brk % headerSize = 0
    rw [hbrk]
    exact h.aligned
  · intro b hmem
    rcases mem_append.mp hmem with hmem | hmem
    · obtain ⟨c, hc, heq, -⟩ := ht.within b hmem
      rw [heq]
      exact h.blocks c (mem_append_left _ hc)
    · refine hlive ?_ (fun c hc => h.blocks c (mem_append_right _ hc)) b hmem
      change q % headerSize = 0
      rw [hq, Nat.add_mul_mod_self_left]
      exact h.blocks e (mem_append_left _ he)
  · refine hlive ht.size fun c hc => ?_
    change (s'.hdr c.addr).size = c.size
    rw [ht.frame _ (hne c hc) (h.live_ne hc)]
    exact h.size c hc
  · change ∀ c : Block, c ∈ _ → s'.base + headerSize ≤ c.addr
    rw [hbase]
    exact hlive ((h.ring.above e he).trans hqin) h.above
  · change ∀ c : Block, c ∈ _ → c.stop ≤ s'.brk
    rw [hbrk]
    exact hlive (hstop.trans (h.ring.below e he)) h.below
  · refine hlive ?_ fun c hc => ?_
    · change q + headerSize + update s'.hist.asked q nbytes q ≤ q + headerSize * n
      rw [update_self]
      omega
    · change c.addr + headerSize + update s'.hist.asked q nbytes c.addr ≤ c.stop
      rw [update_of_ne (hne c hc), hhist]
      exact h.room c hc
  · change (⟨q, n⟩ :: s'.hist.live).Pairwise _
    rw [hhist]
    exact List.Pairwise.cons hnew h.apart
  · intro b hmem
    refine hlive (ht.apart b hmem) fun c hc => ?_
    obtain ⟨d, hd, heq, hle⟩ := ht.within b hmem
    have := apart_iff.mp (h.free d hd c hc)
    rw [apart_iff]
    omega
  · intro x
    have hcover := h.cover x
    rw [ht.cover x] at hcover
    change Covers fs' x ∨ Covers (⟨q, n⟩ :: s'.hist.live) x ↔ ∃ g ∈ s'.hist.got, _
    rw [covers_cons, hhist]
    change _ ↔ Obtained s x
    rw [← hcover, or_assoc]
    exact Iff.rfl

/-- The kernel has given more memory. -/
theorem Sound.grow (h : Sound s fs) (hg : Grown s s' fs fs' n) : Sound s' fs' := by
  have hbase : s'.base = s.base := by rw [hg.state]; rfl
  have hbrk : s'.brk = s.brk + headerSize * wanted n := by rw [hg.state]; rfl
  have hlive : s'.hist.live = s.hist.live := by rw [hg.state]; rfl
  have hasked : s'.hist.asked = s.hist.asked := by rw [hg.state]; rfl
  have hgot : s'.hist.got = (s.brk, headerSize * wanted n) :: s.hist.got := by rw [hg.state]; rfl
  have hle : s.brk ≤ s'.brk := by omega
  constructor
  · exact hg.bounds
  · exact hg.ring
  · exact hg.freep
  · rw [hbrk, Nat.add_mul_mod_self_left]
    exact h.aligned
  · intro b hmem
    rw [hlive] at hmem
    rcases mem_append.mp hmem with hmem | hmem
    · rcases hg.addrs b hmem with heq | ⟨c, hc, heq⟩
      · rw [heq]
        exact h.aligned
      · rw [heq]
        exact h.blocks c (mem_append_left _ hc)
    · exact h.blocks b (mem_append_right _ hmem)
  · rw [hlive]
    intro c hc
    have hlt := (h.pos hc).trans_le (h.below c hc)
    rw [hg.frame _ hlt (h.live_ne hc)]
    exact h.size c hc
  · rw [hlive, hbase]
    exact h.above
  · rw [hlive]
    exact fun c hc => (h.below c hc).trans hle
  · rw [hlive, hasked]
    exact h.room
  · rw [hlive]
    exact h.apart
  · rw [hlive]
    intro b hmem c hc
    refine apart_of_covers hmem (Block.addr_lt_stop (hg.ring.pos b hmem)) (h.pos hc) ?_
    intro x hx hx' hcover
    rcases (hg.cover x).mp hcover with hold | ⟨hx'', -⟩
    · exact h.not_covers hc hx hx' hold
    · have := h.below c hc
      omega
  · intro x
    have hcover := h.cover x
    unfold Obtained at hcover ⊢
    rw [hg.cover x, hlive, hgot]
    simp only [mem_cons, exists_eq_or_imp]
    rw [← hcover]
    clear * -
    tauto

/-- The kernel has refused. -/
theorem Sound.refuse (h : Sound s fs) (n : ℕ) : Sound (refused s n) fs := by
  have hb := h.bounds
  have hr := h.ring
  exact ⟨⟨hb.base_pos, hb.base_le, hb.brk_le, hb.limit_le⟩,
    ⟨hr.leads, hr.size, hr.baseSize, hr.sorted, hr.pos, hr.above, hr.below⟩, h.freep, h.aligned,
    h.blocks, h.size, h.above, h.below, h.room, h.apart, h.free, h.cover⟩

/-- The state after the block at `a` has been given back. -/
def givenBack (s : State) (a : ℕ) : State :=
  { s with hist := { s.hist with live := s.hist.live.filter fun b => b.addr ≠ a } }

/-- A block in use is freed. -/
theorem Sound.giveBack (h : Sound s fs) (hc : c ∈ s.hist.live)
    (hf : Freed s s' fs fs' c.addr c.size) (hfreep : s'.freep ∈ s'.base :: fs'.map Block.addr) :
    Sound (givenBack s' c.addr) fs' := by
  have hbase : s'.base = s.base := by rw [hf.state]
  have hbrk : s'.brk = s.brk := by rw [hf.state]
  have hhist : s'.hist = s.hist := by rw [hf.state]
  have hclt := h.pos hc
  have hlive : ∀ b ∈ (givenBack s' c.addr).hist.live, b ∈ s.hist.live ∧ b.addr ≠ c.addr := by
    intro b hmem
    obtain ⟨hmem, hne⟩ := List.mem_filter.mp hmem
    exact ⟨hhist ▸ hmem, of_decide_eq_true hne⟩
  have hother : ∀ b ∈ s.hist.live, b.addr ≠ c.addr → Ranges.Apart b.range c.range := by
    intro b hb hne
    refine h.apart_of_ne hb hc ?_
    rintro rfl
    exact hne rfl
  constructor
  · have hb := h.bounds
    rw [hf.state]
    exact ⟨hb.base_pos, hb.base_le, hb.brk_le, hb.limit_le⟩
  · have hr := hf.ring
    exact ⟨hr.leads, hr.size, hr.baseSize, hr.sorted, hr.pos, hr.above, hr.below⟩
  · exact hfreep
  · change s'.brk % headerSize = 0
    rw [hbrk]
    exact h.aligned
  · intro b hmem
    rcases mem_append.mp hmem with hmem | hmem
    · rcases hf.addrs b hmem with heq | ⟨d, hd, heq⟩
      · rw [heq]
        exact h.blocks c (mem_append_right _ hc)
      · rw [heq]
        exact h.blocks d (mem_append_left _ hd)
    · exact h.blocks b (mem_append_right _ (hlive b hmem).1)
  · intro b hmem
    obtain ⟨hb, hne⟩ := hlive b hmem
    change (s'.hdr b.addr).size = b.size
    rw [hf.frame _ hne (h.live_ne hb)]
    exact h.size b hb
  · intro b hmem
    change s'.base + headerSize ≤ b.addr
    rw [hbase]
    exact h.above b (hlive b hmem).1
  · intro b hmem
    change b.stop ≤ s'.brk
    rw [hbrk]
    exact h.below b (hlive b hmem).1
  · intro b hmem
    change b.addr + headerSize + s'.hist.asked b.addr ≤ b.stop
    rw [hhist]
    exact h.room b (hlive b hmem).1
  · change (s'.hist.live.filter _).Pairwise _
    rw [hhist]
    exact h.apart.filter _
  · intro b hmem d hd
    obtain ⟨hdl, hne⟩ := hlive d hd
    refine apart_of_covers hmem (Block.addr_lt_stop (hf.ring.pos b hmem)) (h.pos hdl) ?_
    intro x hx hx' hcover
    rcases (hf.cover x).mp hcover with hold | ⟨hle, hlt⟩
    · exact h.not_covers hdl hx hx' hold
    · have := apart_iff.mp (hother d hdl hne)
      change x < c.stop at hlt
      omega
  · intro x
    have hcover := h.cover x
    have hsplit : Covers s.hist.live x ↔
        Covers (givenBack s' c.addr).hist.live x ∨ (c.addr ≤ x ∧ x < c.stop) := by
      constructor
      · rintro ⟨b, hb, hle, hlt⟩
        by_cases hne : b.addr = c.addr
        · -- Only the block itself begins there.
          right
          have heq : b = c := by
            by_contra hbc
            have hblt := h.pos hb
            have := h.apart_of_ne hb hc hbc
            omega
          exact heq ▸ ⟨hle, hlt⟩
        · left
          exact ⟨b, List.mem_filter.mpr ⟨hhist ▸ hb, decide_eq_true hne⟩, hle, hlt⟩
      · rintro (⟨b, hb, hle, hlt⟩ | hin)
        · exact ⟨b, (hlive b hb).1, hle, hlt⟩
        · exact ⟨c, hc, hin⟩
    change Covers fs' x ∨ _ ↔ ∃ g ∈ s'.hist.got, _
    rw [hhist, hf.cover x]
    change _ ↔ Obtained s x
    rw [← hcover, hsplit]
    change (_ ∨ (c.addr ≤ x ∧ x < c.stop)) ∨ _ ↔ _
    clear * -
    tauto

/-- The program writes into its blocks. -/
theorem Sound.write (h : Sound s fs) {hdr : ℕ → Header}
    (hwrite : ∀ a, (∀ b ∈ s.hist.live, a ≤ b.addr ∨ b.stop ≤ a) → hdr a = s.hdr a) :
    Sound { s with hdr := hdr } fs := by
  have hb := h.bounds
  have hr := h.ring
  -- No header of the allocator lies inside a block in use.
  have hring : ∀ a ∈ s.base :: fs.map Block.addr, hdr a = s.hdr a := by
    intro a ha
    refine hwrite a fun c hc => ?_
    rcases mem_cons.mp ha with rfl | ha
    · have := h.above c hc
      omega
    · obtain ⟨b, hmem, rfl⟩ := mem_map.mp ha
      have hlt := Block.addr_lt_stop (hr.pos b hmem)
      have := apart_iff.mp (h.free b hmem c hc)
      omega
  have hlive : ∀ c ∈ s.hist.live, hdr c.addr = s.hdr c.addr := by
    intro c hc
    refine hwrite c.addr fun d hd => ?_
    by_cases heq : c = d
    · exact .inl (heq ▸ le_rfl)
    · have hlt := h.pos hc
      have := h.apart_of_ne hc hd heq
      omega
  constructor
  · exact ⟨hb.base_pos, hb.base_le, hb.brk_le, hb.limit_le⟩
  · constructor
    · refine hr.leads.congr fun a ha => ?_
      exact congrArg Header.ptr (hring a ha)
    · intro b hmem
      change (hdr b.addr).size = b.size
      rw [hring _ (List.mem_cons_of_mem _ (List.mem_map_of_mem hmem))]
      exact hr.size b hmem
    · change (hdr s.base).size = 0
      rw [hring _ List.mem_cons_self]
      exact hr.baseSize
    · exact hr.sorted
    · exact hr.pos
    · exact hr.above
    · exact hr.below
  · exact h.freep
  · exact h.aligned
  · exact h.blocks
  · intro c hc
    change (hdr c.addr).size = c.size
    rw [hlive c hc]
    exact h.size c hc
  · exact h.above
  · exact h.below
  · exact h.room
  · exact h.apart
  · exact h.free
  · exact h.cover

/-! ## The functions -/

/-- `free` of a block in use. -/
theorem Sound.free_runs (h : Sound s fs) (hc : c ∈ s.hist.live) :
    ∃ s' fs', Heap.free (c.addr + headerSize) s = .ok () s' ∧ Sound (givenBack s' c.addr) fs' := by
  have hlt := h.pos hc
  have hpos : 0 < c.size := by
    unfold Block.stop headerSize at hlt
    omega
  obtain ⟨s', fs', hrun, hf, hfreep⟩ := Heap.free_runs h.ring h.bounds h.freep (h.size c hc) hpos
    (h.above c hc) (h.below c hc) fun b hmem => h.free b hmem c hc
  exact ⟨s', fs', hrun, h.giveBack hc hf hfreep⟩

/-- The first use of the ring. -/
theorem initRing_unused (hfreep : s.freep = 0) (hbase : s.base < s.brk) (hmax : s.brk ≤ maxva) :
    initRing s =
      .ok () { s with hdr := update s.hdr s.base ⟨s.base, 0⟩, freep := s.base } := by
  unfold initRing
  rw [bind_apply, gets_apply, ok_bind]
  change (if s.freep = 0 then _ else _ : HeapM Unit) s = _
  rw [if_pos hfreep, bind_apply, setPtr]
  change Outcome.bind (setHeader s.base _ s) _ = _
  rw [setHeader_eq hmax hbase, ok_bind, bind_apply, Seq.modify_apply, ok_bind, setSize]
  refine (setHeader_eq (s := { s with
    hdr := update s.hdr s.base ⟨s.base, (s.hdr s.base).size⟩, freep := s.base })
    hmax hbase _).trans ?_
  dsimp only
  rw [update_idem, update_self]

/-- Later uses. -/
theorem initRing_used (hfreep : s.freep ≠ 0) : initRing s = .ok () s := by
  unfold initRing
  rw [bind_apply, gets_apply, ok_bind]
  change (if s.freep = 0 then _ else _ : HeapM Unit) s = _
  rw [if_neg hfreep]
  rfl

/-- Once there is a ring, it is not built again. -/
theorem Sound.initRing_eq (h : Sound s fs) : initRing s = .ok () s := by
  refine initRing_used ?_
  have hbase := h.bounds.base_pos
  rcases mem_cons.mp h.freep with heq | hmem
  · omega
  · have := (List.pairwise_cons.mp h.ring.increasing).1 _ hmem
    omega

/-- The ring exists after its first use. -/
theorem Inv.initRing_runs (h : Inv s) :
    ∃ s' fs, initRing s = .ok () s' ∧ Sound s' fs ∧
      s' = { s with hdr := s'.hdr, freep := s'.freep } ∧ (fs ≠ [] → s' = s) := by
  rcases h with h | ⟨fs, h⟩
  · have hb := h.bounds
    have hbrk : s.base < s.brk := by
      have := hb.base_le
      unfold headerSize at this
      omega
    have hnil : ∀ {p : Block → Prop}, ∀ b ∈ s.hist.live, p b := by
      rw [h.live]
      exact forall_mem_nil _
    refine ⟨_, [], initRing_unused h.freep hbrk hb.brk_le_maxva, ?_, rfl, fun hne => absurd rfl hne⟩
    constructor
    · exact ⟨hb.base_pos, hb.base_le, hb.brk_le, hb.limit_le⟩
    · refine ⟨?_, forall_mem_nil _, ?_, List.Pairwise.nil, forall_mem_nil _,
        forall_mem_nil _, forall_mem_nil _⟩
      · change (update s.hdr s.base _ s.base).ptr = s.base
        rw [update_self]
      · change (update s.hdr s.base _ s.base).size = 0
        rw [update_self]
    · exact List.mem_cons_self
    · exact h.aligned
    · exact hnil
    · exact hnil
    · exact hnil
    · exact hnil
    · exact hnil
    · rw [h.live]
      exact List.Pairwise.nil
    · exact forall_mem_nil _
    · intro x
      unfold Obtained Covers
      rw [h.live, h.got]
      simp
  · exact ⟨s, fs, h.initRing_eq, h, rfl, fun _ => rfl⟩

/-- A request has room in its units. -/
theorem units_room (hn : nbytes < 2 ^ 32) :
    0 < units nbytes ∧ headerSize + nbytes ≤ headerSize * units nbytes := by
  unfold units headerSize
  omega

/-- What a call has asked of the kernel: what it meant to. -/
def Asks (s s' : State) : Prop :=
  s.brk ≤ s'.brk ∧ ∃ rs, s'.hist.requests = rs ++ s.hist.requests ∧
    ∀ r ∈ rs, r.2 = (r.1 * headerSize : ℕ)

/-- `malloc` searches the ring from `freep` on. -/
theorem malloc_eq {s0 : State} (hinit : initRing s = .ok () s0) (h : Sound s0 fs) :
    malloc nbytes s =
      mallocLoop (units nbytes) (rounds s0) s0.freep (next s0 s0.freep) s0 := by
  unfold malloc
  rw [bind_apply, hinit, ok_bind, bind_apply, gets_apply, ok_bind]
  change Outcome.bind (header s0.freep s0) _ = _
  rw [h.bounds.header_eq (h.ring.lt_brk h.bounds h.freep), ok_bind]
  rfl

/-- `malloc` finds no memory, or hands out a block. -/
theorem Inv.malloc_runs (h : Inv s) (hn : nbytes < 2 ^ 32) (hunits : units nbytes < 2 ^ 27) :
    ∃ r s', malloc nbytes s = .ok r s' ∧ Asks s s' ∧
      (r = 0 ∧ s'.brk = s.brk ∧ Inv s' ∨
        ∃ q fs, r = q + headerSize ∧ Sound (handedOut s' q (units nbytes) nbytes) fs) := by
  obtain ⟨s0, fs, hinit, hsound, hstate, -⟩ := h.initRing_runs
  obtain ⟨hpos, hroom⟩ := units_room hn
  have hbrk : s0.brk = s.brk := by rw [hstate]
  have hhist : s0.hist = s.hist := by rw [hstate]
  rw [malloc_eq hinit hsound]
  rcases search_runs hsound.ring hsound.bounds hsound.freep hpos hunits with
    ⟨s', fs', q, heq, ht⟩ | heq | ⟨s1, fs1, s', fs', q, heq, hg, ht⟩
  · refine ⟨_, s', heq, ⟨?_, [], ?_, forall_mem_nil _⟩,
      .inr ⟨q, fs', rfl, hsound.take ht hroom⟩⟩
    · rw [ht.state, hbrk]
    · rw [ht.state, hhist]
      rfl
  · refine ⟨_, _, heq, ⟨hbrk.ge, [request (units nbytes)], ?_, ?_⟩,
      .inl ⟨rfl, hbrk, .inr ⟨fs, hsound.refuse _⟩⟩⟩
    · rw [← hhist]
      rfl
    · intro r hr
      rw [List.mem_singleton.mp hr, request, Nat.mul_comm]
  · have hgrown := hsound.grow hg
    refine ⟨_, s', heq, ⟨?_, [request (units nbytes)], ?_, ?_⟩,
      .inr ⟨q, fs', rfl, hgrown.take ht hroom⟩⟩
    · rw [ht.state, ← hbrk]
      change s0.brk ≤ s1.brk
      rw [hg.state]
      exact Nat.le_add_right _ _
    · rw [ht.state]
      change s1.hist.requests = _
      rw [hg.state, ← hhist]
      rfl
    · intro r hr
      rw [List.mem_singleton.mp hr, request, Nat.mul_comm]

/-! ## Runs -/

/-- The invariant holds at the start. -/
theorem Start.inv (h : Start s) (hlimit : s.limit ≤ 2 ^ 36) : Inv s :=
  .inl ⟨⟨h.base_pos, h.base_le, h.brk_le, hlimit⟩, h.freep, h.aligned, h.live, h.got⟩

/-- A call of `malloc` that hands out a block. -/
theorem Call.run_malloc (h : Heap.malloc nbytes s = .ok (q + headerSize) s') :
    (Call.malloc nbytes).run s =
      .ok (q + headerSize) (handedOut s' q (units nbytes) nbytes) := by
  have hne : q + headerSize ≠ 0 := Nat.succ_ne_zero (q + 15)
  change (Heap.malloc nbytes >>= _ : HeapM ℕ) s = _
  rw [bind_apply, h, ok_bind, if_pos hne, Nat.add_sub_cancel]
  rfl

/-- A call of `free`. -/
theorem Call.run_free (h : Heap.free (a + headerSize) s = .ok () s') :
    (Call.free (a + headerSize)).run s = .ok 0 (givenBack s' a) := by
  change (Heap.free (a + headerSize) >>= _ : HeapM ℕ) s = _
  rw [bind_apply, h, ok_bind, Nat.add_sub_cancel]
  rfl

/-- Every call of a correct program ends, and keeps what holds between the calls. -/
theorem Call.run_runs (h : Inv s) {call : Call} (hallowed : call.Allowed s) :
    Runs (fun _ => False) call.run s fun _ s' => Inv s' := by
  cases call with
  | malloc nbytes =>
    obtain ⟨hn, hunits⟩ := hallowed
    obtain ⟨r, s', hrun, -, hcases⟩ := h.malloc_runs hn hunits
    rcases hcases with ⟨rfl, -, hinv⟩ | ⟨q, fs, rfl, hsound⟩
    · exact .of_eq_bind hrun (.pure hinv)
    · exact .of_eq (Call.run_malloc hrun) (.inr ⟨fs, hsound⟩)
  | free ap =>
    obtain ⟨c, hc, rfl⟩ := hallowed
    rcases h with hunused | ⟨fs, hsound⟩
    · rw [hunused.live] at hc
      cases hc
    · obtain ⟨s', fs', hrun, hsound'⟩ := hsound.free_runs hc
      exact .of_eq (Call.run_free hrun) (.inr ⟨fs', hsound'⟩)
  | write hdr =>
    refine .modify_bind (.pure ?_)
    rcases h with hunused | ⟨fs, hsound⟩
    · have hb := hunused.bounds
      exact .inl ⟨⟨hb.base_pos, hb.base_le, hb.brk_le, hb.limit_le⟩, hunused.freep,
        hunused.aligned, hunused.live, hunused.got⟩
    · exact .inr ⟨fs, hsound.write hallowed⟩

end RiscvKernel.Heap
