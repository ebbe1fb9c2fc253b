import RiscvKernel.Heap.Ring

/-!
# The search of `malloc`

The loop of `malloc` goes round the ring from `freep` until a block is large enough. If it comes
back to `freep`, `morecore` asks the kernel for a block and frees it into the ring, and the loop
goes round once more, where it finds that block.
-/

namespace RiscvKernel.Heap

open Threads Function
open Threads.Seq (bind_apply ok_bind)
open List (cons_append length_cons length_map map_append map_cons mem_append mem_append_left
  mem_append_right mem_cons mem_cons_of_mem mem_cons_self mem_map mem_map_of_mem pairwise_append
  pairwise_cons)

variable {s s' : State} {fs fs' pre post : List Block} {k : Block} {a n : ℕ}

/-! ## Taking a block -/

/-- What `malloc` does with a free block that is large enough: the `n` units at `q` are taken from
the free blocks `fs`, which leaves `fs'`. -/
structure Taken (s s' : State) (fs fs' : List Block) (q n : ℕ) : Prop where
  /-- The ring is in order. -/
  ring : Ring s' fs'
  /-- `freep` is in the ring. -/
  freep : s'.freep ∈ s.base :: fs'.map Block.addr
  /-- The header of the block holds its size. -/
  size : (s'.hdr q).size = n
  /-- The block was part of a free block. -/
  inside : ∃ c ∈ fs, ∃ j, q = c.addr + headerSize * j ∧ q + headerSize * n ≤ c.stop
  /-- The bytes of the block are not free any more. -/
  cover : ∀ x, Covers fs x ↔ Covers fs' x ∨ (q ≤ x ∧ x < q + headerSize * n)
  /-- What is free does not touch the block. -/
  apart : ∀ b ∈ fs', b.stop ≤ q ∨ q + headerSize * n ≤ b.addr
  /-- What is free was free. -/
  within : ∀ b ∈ fs', ∃ c ∈ fs, b.addr = c.addr ∧ b.stop ≤ c.stop
  /-- The headers of other blocks stay. -/
  frame : ∀ x, x ≠ q → x ∉ s.base :: fs.map Block.addr → s'.hdr x = s.hdr x
  /-- Nothing else changes. -/
  state : s' = { s with hdr := s'.hdr, freep := s'.freep }

/-- The headers before a free block. -/
theorem Ring.lt_middle {x : ℕ} (h : Ring s (pre ++ k :: post))
    (hx : x ∈ s.base :: pre.map Block.addr) : x < k.addr := by
  have hinc := h.increasing
  rw [map_append, map_cons, ← cons_append] at hinc
  exact (pairwise_append.mp hinc).2.2 x hx k.addr mem_cons_self

section Take

variable (h : Ring s (pre ++ k :: post)) (hp : a = lastOf s.base (pre.map Block.addr))
include h hp

/-- A block of the right size is taken out of the ring. -/
theorem take_exact (hk : k.size = n) :
    Taken s { s with hdr := update s.hdr a ⟨(s.hdr k.addr).ptr, (s.hdr a).size⟩, freep := a }
      (pre ++ k :: post) (pre ++ post) k.addr n := by
  have hlow : a ∈ s.base :: pre.map Block.addr := hp ▸ lastOf_mem _ _
  have hkmem : k ∈ pre ++ k :: post := mem_append_right _ mem_cons_self
  have hleads := h.leads
  have hnodup := h.nodup
  rw [map_append, map_cons] at hleads hnodup
  have hsizes : ∀ x, (update s.hdr a ⟨(s.hdr k.addr).ptr, (s.hdr a).size⟩ x).size =
      (s.hdr x).size := by
    intro x
    by_cases hxa : x = a
    · rw [hxa, update_self]
    · rw [update_of_ne hxa]
  have hsub : ∀ b ∈ pre ++ post, b ∈ pre ++ k :: post := by
    intro b hmem
    rcases mem_append.mp hmem with hmem | hmem
    · exact mem_append_left _ hmem
    · exact mem_append_right _ (mem_cons_of_mem _ hmem)
  obtain ⟨hpre, hpost, hcross⟩ := pairwise_append.mp h.sorted
  obtain ⟨hfirst, hpost⟩ := pairwise_cons.mp hpost
  have hstop : k.stop = k.addr + headerSize * n := by rw [Block.stop, hk]
  constructor
  · constructor
    · rw [map_append]
      refine (hleads.unlink hnodup).congr fun x _ => ?_
      change (update s.hdr a _ x).ptr =
        update (next s) (lastOf s.base (pre.map Block.addr)) (next s k.addr) x
      rw [← hp]
      by_cases hxa : x = a
      · rw [hxa, update_self, update_self]
        rfl
      · rw [update_of_ne hxa, update_of_ne hxa]
        rfl
    · intro b hmem
      exact (hsizes _).trans (h.size b (hsub b hmem))
    · exact (hsizes _).trans h.baseSize
    · refine pairwise_append.mpr ⟨hpre, hpost, fun b hb c hc => ?_⟩
      exact hcross b hb c (mem_cons_of_mem _ hc)
    · exact fun b hmem => h.pos b (hsub b hmem)
    · exact fun b hmem => h.above b (hsub b hmem)
    · exact fun b hmem => h.below b (hsub b hmem)
  · rw [map_append, ← cons_append]
    exact mem_append_left _ hlow
  · exact (hsizes _).trans ((h.size k hkmem).trans hk)
  · exact ⟨k, hkmem, 0, rfl, hstop.ge⟩
  · intro x
    rw [covers_append, covers_append, covers_cons, hstop]
    tauto
  · intro b hmem
    rw [← hstop]
    rcases mem_append.mp hmem with hmem | hmem
    · exact .inl (hcross b hmem k mem_cons_self).le
    · exact .inr (hfirst b hmem).le
  · exact fun b hmem => ⟨b, hsub b hmem, rfl, le_rfl⟩
  · intro x _ hx
    refine update_of_ne ?_ _ _
    rintro rfl
    rw [map_append, ← cons_append] at hx
    exact hx (mem_append_left _ hlow)
  · rfl

/-- A larger block is shortened. -/
theorem take_split (hn : 0 < n) (hk : n < k.size) :
    Taken s { s with
        hdr := update (update s.hdr k.addr ⟨(s.hdr k.addr).ptr, k.size - n⟩)
          (k.addr + headerSize * (k.size - n))
          ⟨(s.hdr (k.addr + headerSize * (k.size - n))).ptr, n⟩
        freep := a }
      (pre ++ k :: post) (pre ++ ⟨k.addr, k.size - n⟩ :: post)
      (k.addr + headerSize * (k.size - n)) n := by
  have hlow : a ∈ s.base :: pre.map Block.addr := hp ▸ lastOf_mem _ _
  have hkmem : k ∈ pre ++ k :: post := mem_append_right _ mem_cons_self
  have hleads := h.leads
  rw [map_append, map_cons] at hleads
  obtain ⟨hlead1, hlead2⟩ := Chain.leads_append.mp hleads
  obtain ⟨hpre, hpost, hcross⟩ := pairwise_append.mp h.sorted
  obtain ⟨hfirst, hpost⟩ := pairwise_cons.mp hpost
  generalize hq : k.addr + headerSize * (k.size - n) = q
  have hkq : k.addr < q := by
    unfold headerSize at hq
    omega
  have hqstop : q + headerSize * n = k.stop := by
    unfold Block.stop headerSize at *
    omega
  have hshort : (⟨k.addr, k.size - n⟩ : Block).stop = q := hq
  have hqlt : q < k.stop := by
    unfold headerSize at hqstop
    omega
  have hprelt : ∀ x ∈ s.base :: pre.map Block.addr, x < k.addr := fun x hx => h.lt_middle hx
  have hpostlt : ∀ b ∈ post, q < b.addr := fun b hmem => hqlt.trans (hfirst b hmem)
  have hhdr : ∀ x, x ≠ k.addr → x ≠ q →
      update (update s.hdr k.addr ⟨(s.hdr k.addr).ptr, k.size - n⟩) q
        ⟨(s.hdr q).ptr, n⟩ x = s.hdr x := by
    intro x hxk hxq
    rw [update_of_ne hxq, update_of_ne hxk]
  have hnext : ∀ x, (update (update s.hdr k.addr
      ⟨(s.hdr k.addr).ptr, k.size - n⟩) q ⟨(s.hdr q).ptr, n⟩ x).ptr = next s x := by
    intro x
    by_cases hxq : x = q
    · rw [hxq, update_self]
      rfl
    · rw [update_of_ne hxq]
      by_cases hxk : x = k.addr
      · rw [hxk, update_self]
        rfl
      · rw [update_of_ne hxk]
        rfl
  constructor
  · refine h.rebuild rfl rfl ?_ ?_ ?_ (hlead1.congr fun x _ => hnext x)
      (hlead2.congr fun x _ => hnext x) ?_ (Nat.sub_pos_of_lt hk) (h.above k hkmem) ?_ hpre ?_ ?_
    · intro b hmem
      rcases mem_append.mp hmem with hmem | hmem
      · exact mem_append_left _ hmem
      · exact mem_append_right _ (mem_cons_of_mem _ hmem)
    · intro b hmem
      change (update (update s.hdr k.addr _) q _ b.addr).size = _
      rcases mem_append.mp hmem with hmem | hmem
      · have hlt := hprelt _ (mem_cons_of_mem _ (mem_map_of_mem hmem))
        rw [hhdr _ hlt.ne (hlt.trans hkq).ne]
      · have hlt := hpostlt b hmem
        rw [hhdr _ (hkq.trans hlt).ne' hlt.ne']
    · change (update (update s.hdr k.addr _) q _ s.base).size = 0
      have hlt := hprelt _ mem_cons_self
      rw [hhdr _ hlt.ne (hlt.trans hkq).ne]
      exact h.baseSize
    · change (update (update s.hdr k.addr _) q _ k.addr).size = k.size - n
      rw [update_of_ne hkq.ne, update_self]
    · rw [hshort]
      exact hqlt.le.trans (h.below k hkmem)
    · refine List.Pairwise.cons (fun b hmem => ?_) hpost
      rw [hshort]
      exact hpostlt b hmem
    · intro b hmem d hd
      rcases mem_cons.mp hd with rfl | hd
      · exact hcross b hmem k mem_cons_self
      · exact hcross b hmem d (mem_cons_of_mem _ hd)
  · rw [map_append, ← cons_append]
    exact mem_append_left _ hlow
  · change (update (update s.hdr k.addr _) q _ q).size = n
    rw [update_self]
  · exact ⟨k, hkmem, k.size - n, hq.symm, hqstop.le⟩
  · intro x
    have hmid : (k.addr ≤ x ∧ x < k.stop) ↔ (k.addr ≤ x ∧ x < q) ∨ (q ≤ x ∧ x < k.stop) := by omega
    rw [covers_append, covers_append, covers_cons, covers_cons, hshort, hqstop, hmid]
    clear * -
    tauto
  · intro b hmem
    rw [hqstop]
    rcases mem_append.mp hmem with hmem | hmem
    · exact .inl ((hcross b hmem k mem_cons_self).trans hkq).le
    rcases mem_cons.mp hmem with rfl | hmem
    · exact .inl hshort.le
    · exact .inr (hfirst b hmem).le
  · intro b hmem
    rcases mem_append.mp hmem with hmem | hmem
    · exact ⟨b, mem_append_left _ hmem, rfl, le_rfl⟩
    rcases mem_cons.mp hmem with rfl | hmem
    · exact ⟨k, hkmem, rfl, hshort.trans_le hqlt.le⟩
    · exact ⟨b, mem_append_right _ (mem_cons_of_mem _ hmem), rfl, le_rfl⟩
  · intro x hxq hx
    refine hhdr x ?_ hxq
    rintro rfl
    exact hx (mem_cons_of_mem _ (mem_map_of_mem hkmem))
  · rfl

/-- `malloc` takes `n` units of a free block. -/
theorem take_runs (hb : Bounds s) (hn : 0 < n) (hk : n ≤ k.size) :
    ∃ s' fs' q, take n a k.addr s = .ok (q + headerSize) s' ∧
      Taken s s' (pre ++ k :: post) fs' q n := by
  have hkmem : k ∈ pre ++ k :: post := mem_append_right _ mem_cons_self
  have hkbrk := h.lt_brk hb (mem_cons_of_mem _ (mem_map_of_mem hkmem))
  have hbelow := h.below k hkmem
  have hp' : a ∈ s.base :: (pre ++ k :: post).map Block.addr := by
    rw [hp, map_append, ← cons_append]
    exact mem_append_left _ (lastOf_mem _ _)
  have habrk := h.lt_brk hb hp'
  unfold take
  rw [bind_apply, hb.header_eq hkbrk, ok_bind, h.size k hkmem]
  by_cases heq : k.size = n
  · rw [if_pos heq, bind_apply, setPtr, hb.setHeader_eq habrk, ok_bind]
    exact ⟨_, _, _, rfl, take_exact h hp heq⟩
  · have hlt : n < k.size := by omega
    have hq : k.addr + headerSize * (k.size - n) < s.brk := by
      unfold Block.stop headerSize at *
      omega
    have hne : k.addr + headerSize * (k.size - n) ≠ k.addr := by
      unfold headerSize
      omega
    have hb1 : Bounds { s with hdr := update s.hdr k.addr ⟨(s.hdr k.addr).ptr, k.size - n⟩ } :=
      ⟨hb.base_pos, hb.base_le, hb.brk_le, hb.limit_le⟩
    rw [if_neg heq, bind_apply, setSize, hb.setHeader_eq hkbrk, ok_bind, bind_apply,
      setSize, hb1.setHeader_eq hq, ok_bind]
    have htaken := take_split h hp hn hlt
    rw [← update_of_ne hne ⟨(s.hdr k.addr).ptr, k.size - n⟩ s.hdr] at htaken
    exact ⟨_, _, _, rfl, htaken⟩

end Take

/-! ## The search -/

/-- What `malloc` does when no block is large enough. -/
def extend (nunits fuel : ℕ) : HeapM ℕ := do
  let p ← morecore nunits
  if p = 0 then return 0
  else do
    let h ← header p
    mallocLoop nunits fuel p h.ptr

/-- One round of the loop. -/
theorem mallocLoop_succ (hmax : s.brk ≤ maxva) {p : ℕ} (hp : p < s.brk) (fuel : ℕ) :
    mallocLoop n (fuel + 1) a p s =
      if (s.hdr p).size ≥ n then take n a p s
      else if p = s.freep then extend n fuel s
      else mallocLoop n fuel p (next s p) s := by
  rw [mallocLoop, bind_apply, header_eq hmax hp, ok_bind]
  split
  · rfl
  · rw [bind_apply]
    change (if p = s.freep then extend n fuel else mallocLoop n fuel p (next s p) : HeapM ℕ) s = _
    split <;> rfl

/-- The loop ends at a block that is large enough, or there is none and it comes to `freep`. -/
theorem mallocLoop_walk {l : List ℕ} (hb : Bounds s) (hleads : Chain.Leads (next s) a l s.freep)
    (hl : s.freep ∉ l) (hbrk : ∀ x ∈ l ++ [s.freep], x < s.brk) (fuel : ℕ) :
    (∃ p q, p ∈ a :: l ∧ next s p = q ∧ q ∈ l ++ [s.freep] ∧ n ≤ (s.hdr q).size ∧
      mallocLoop n (l.length + 1 + fuel) a (next s a) s = take n p q s) ∨
    (∀ q ∈ l ++ [s.freep], (s.hdr q).size < n) ∧
      mallocLoop n (l.length + 1 + fuel) a (next s a) s = extend n fuel s := by
  -- The induction is on the blocks between `a` and `freep`.
  induction l generalizing a with
  | nil =>
    have hnext : next s a = s.freep := hleads
    rw [show ([] : List ℕ).length + 1 + fuel = fuel + 1 by rw [List.length_nil]; omega, hnext,
      mallocLoop_succ hb.brk_le_maxva (hbrk _ mem_cons_self)]
    by_cases hsize : (s.hdr s.freep).size ≥ n
    · left
      refine ⟨a, s.freep, mem_cons_self, hnext, mem_cons_self, hsize, ?_⟩
      rw [if_pos hsize]
    · right
      refine ⟨fun q hq => ?_, ?_⟩
      · rw [List.mem_singleton.mp hq]
        omega
      · rw [if_neg hsize, if_pos rfl]
  | cons d l ih =>
    obtain ⟨hd, hleads⟩ := hleads
    obtain ⟨hne, hl⟩ := not_or.mp fun h => hl (mem_cons.mpr h)
    rw [show (d :: l).length + 1 + fuel = l.length + 1 + fuel + 1 by rw [length_cons]; omega,
      hd, mallocLoop_succ hb.brk_le_maxva (hbrk d mem_cons_self)]
    by_cases hsize : (s.hdr d).size ≥ n
    · left
      refine ⟨a, d, mem_cons_self, hd, mem_cons_self, hsize, ?_⟩
      rw [if_pos hsize]
    · rw [if_neg hsize, if_neg (Ne.symm hne)]
      rcases ih hleads hl fun x hx => hbrk x (mem_cons_of_mem _ hx) with
        ⟨p, q, hp, hq, hmem, hfits, hrun⟩ | ⟨hsmall, hrun⟩
      · left
        exact ⟨p, q, mem_cons_of_mem _ hp, hq, mem_cons_of_mem _ hmem, hfits, hrun⟩
      · right
        refine ⟨fun q hq => ?_, hrun⟩
        rcases mem_cons.mp hq with rfl | hq
        · omega
        · exact hsmall q hq

/-- A free block follows the one before it in the ring. -/
theorem Ring.prev_eq {p : ℕ} (h : Ring s (pre ++ k :: post))
    (hp : p ∈ s.base :: (pre ++ k :: post).map Block.addr) (hnext : next s p = k.addr) :
    p = lastOf s.base (pre.map Block.addr) := by
  have hleads := h.leads
  have hlast := hleads
  rw [map_append, map_cons] at hlast
  refine hleads.injective ?_ hp ?_ (hnext.trans (Chain.leads_append.mp hlast).1.last.symm)
  · rw [List.nodup_append_comm]
    exact h.nodup
  · rw [map_append, ← cons_append]
    exact mem_append_left _ (lastOf_mem _ _)

/-- From `freep` the loop takes a free block that is large enough, or there is none. -/
theorem mallocLoop_runs (h : Ring s fs) (hb : Bounds s)
    (hfreep : s.freep ∈ s.base :: fs.map Block.addr) (hn : 0 < n) (fuel : ℕ) :
    (∃ s' fs' q, mallocLoop n (fs.length + 1 + fuel) s.freep (next s s.freep) s =
        .ok (q + headerSize) s' ∧ Taken s s' fs fs' q n) ∨
    (∀ b ∈ fs, b.size < n) ∧
      mallocLoop n (fs.length + 1 + fuel) s.freep (next s s.freep) s = extend n fuel s := by
  obtain ⟨l, hleads, hperm⟩ := h.leads.rotate hfreep
  have hlen : fs.length = l.length := by
    have := hperm.length_eq
    rw [length_cons, length_cons, length_map] at this
    omega
  have hl : s.freep ∉ l := (List.nodup_cons.mp (hperm.nodup_iff.mpr h.nodup)).1
  have hmem : ∀ {x}, x ∈ l ++ [s.freep] ↔ x ∈ s.base :: fs.map Block.addr := by
    intro x
    rw [← hperm.mem_iff, mem_append, List.mem_singleton, mem_cons, or_comm]
  have hbrk : ∀ x ∈ l ++ [s.freep], x < s.brk := fun x hx => h.lt_brk hb (hmem.mp hx)
  rw [hlen]
  rcases mallocLoop_walk (n := n) hb hleads hl hbrk fuel with
    ⟨p, q, hp, hpq, hq, hfits, hrun⟩ | ⟨hsmall, hrun⟩
  · left
    rw [hrun]
    have hp' := hperm.mem_iff.mp hp
    rcases mem_cons.mp (hmem.mp hq) with rfl | hq
    · rw [h.baseSize] at hfits
      omega
    · obtain ⟨k, hk, rfl⟩ := mem_map.mp hq
      obtain ⟨pre, post, rfl⟩ := List.append_of_mem hk
      rw [h.size k hk] at hfits
      exact take_runs h (h.prev_eq hp' hpq) hb hn hfits
  · right
    refine ⟨fun b hb' => ?_, hrun⟩
    have := hsmall b.addr (hmem.mpr (mem_cons_of_mem _ (mem_map_of_mem hb')))
    rwa [h.size b hb'] at this

/-! ## More memory -/

/-- The units that `morecore` asks for. -/
def wanted (n : ℕ) : ℕ := if n < 4096 then 4096 else n

/-- What `morecore` asks for, and the argument of its `sbrk`. -/
def request (n : ℕ) : ℕ × ℤ := (wanted n, (headerSize * wanted n : ℕ))

/-- The state after `sbrk` has refused the units that `morecore` asks for. -/
def refused (s : State) (n : ℕ) : State :=
  { s with
    calls := s.calls + 1
    hist := { s.hist with requests := request n :: s.hist.requests } }

/-- The state after `sbrk` has granted them, and the size of the new block is stored. -/
def granted (s : State) (n : ℕ) : State :=
  { s with
    hdr := update s.hdr s.brk ⟨(s.hdr s.brk).ptr, wanted n⟩
    brk := s.brk + headerSize * wanted n
    calls := s.calls + 1
    hist := { s.hist with
      got := (s.brk, headerSize * wanted n) :: s.hist.got
      requests := request n :: s.hist.requests } }

/-- What `morecore` does with the `n` units that it gets: they are free. -/
structure Grown (s s' : State) (fs fs' : List Block) (n : ℕ) : Prop where
  /-- The memory is larger. -/
  bounds : Bounds s'
  /-- The ring is in order. -/
  ring : Ring s' fs'
  /-- `freep` is in the ring. -/
  freep : s'.freep ∈ s'.base :: fs'.map Block.addr
  /-- There is a free block of this size. -/
  fits : ∃ b ∈ fs', n ≤ b.size
  /-- The new bytes are free, too. -/
  cover : ∀ x, Covers fs' x ↔ Covers fs x ∨ (s.brk ≤ x ∧ x < s.brk + headerSize * wanted n)
  /-- A free block begins where one was, or at the old break. -/
  addrs : ∀ b ∈ fs', b.addr = s.brk ∨ ∃ c ∈ fs, b.addr = c.addr
  /-- The headers of other blocks stay. -/
  frame : ∀ x, x < s.brk → x ∉ s.base :: fs.map Block.addr → s'.hdr x = s.hdr x
  /-- Nothing else changes. -/
  state : s' = { granted s n with hdr := s'.hdr, freep := s'.freep }

/-- At least what is needed is asked for. -/
theorem wanted_spec (n : ℕ) : n ≤ wanted n ∧ 0 < wanted n := by
  unfold wanted
  split <;> omega

/-- Below 2 ^ 27 units the argument of `sbrk` is what `morecore` means. -/
theorem toInt_wanted (hn : n < 2 ^ 27) :
    toInt (wanted n * headerSize) = (headerSize * wanted n : ℕ) := by
  unfold toInt wanted headerSize
  split <;> omega

/-- The kernel grants what `morecore` asks for if it has the memory. -/
theorem sbrk_granted (hrefuse : s.refuse s.calls = false)
    (hlimit : s.brk + headerSize * wanted n ≤ s.limit) :
    sbrk (wanted n) ((headerSize * wanted n : ℕ) : ℤ) s =
      .ok (some s.brk) { granted s n with hdr := s.hdr } := by
  have hwanted := (wanted_spec n).2
  have hpos : (0 : ℤ) < (headerSize * wanted n : ℕ) := by
    unfold headerSize
    omega
  have hrefused : ¬ (s.refuse s.calls = true ∨ (s.limit : ℤ) <
    s.brk + (headerSize * wanted n : ℕ)) := by
    rw [hrefuse, or_iff_right Bool.false_ne_true]
    omega
  have hbrk : ((s.brk : ℤ) + (headerSize * wanted n : ℕ)).toNat =
      s.brk + headerSize * wanted n := by omega
  have hlt : s.brk < s.brk + headerSize * wanted n := by omega
  unfold sbrk kernelSbrk
  simp only [if_pos hpos, if_neg hrefused, hbrk, if_pos hlt, Nat.add_sub_cancel_left]
  rfl

/-- `sbrk` with the argument of `morecore`. -/
theorem sbrk_wanted (s : State) (n : ℕ) :
    sbrk (wanted n) ((headerSize * wanted n : ℕ) : ℤ) s = .ok none (refused s n) ∨
    s.brk + headerSize * wanted n ≤ s.limit ∧
      sbrk (wanted n) ((headerSize * wanted n : ℕ) : ℤ) s =
        .ok (some s.brk) { granted s n with hdr := s.hdr } := by
  have hpos : (0 : ℤ) < (headerSize * wanted n : ℕ) := by
    have := (wanted_spec n).2
    unfold headerSize
    omega
  by_cases hrefused : s.refuse s.calls = true ∨ (s.limit : ℤ) < s.brk + (headerSize * wanted n : ℕ)
  · left
    unfold sbrk kernelSbrk
    simp only [if_pos hpos, if_pos hrefused, lt_self_iff_false, if_false]
    rfl
  · right
    obtain ⟨hrefuse, hle⟩ := not_or.mp hrefused
    have hlimit : s.brk + headerSize * wanted n ≤ s.limit := by omega
    exact ⟨hlimit, sbrk_granted (Bool.eq_false_iff.mpr hrefuse) hlimit⟩

/-- The memory that `sbrk` has granted is one block above all others. -/
theorem Ring.granted (h : Ring s fs) (hb : Bounds s)
    (hlimit : s.brk + headerSize * wanted n ≤ s.limit) :
    Ring (granted s n) fs ∧ Bounds (Heap.granted s n) := by
  have hhdr : ∀ x ∈ s.base :: fs.map Block.addr, (Heap.granted s n).hdr x = s.hdr x := by
    intro x hx
    exact update_of_ne (h.lt_brk hb hx).ne _ _
  constructor
  · constructor
    · refine h.leads.congr fun x hx => ?_
      rw [next, hhdr x hx]
      rfl
    · intro b hmem
      rw [hhdr _ (mem_cons_of_mem _ (mem_map_of_mem hmem))]
      exact h.size b hmem
    · change ((Heap.granted s n).hdr s.base).size = 0
      rw [hhdr _ mem_cons_self]
      exact h.baseSize
    · exact h.sorted
    · exact h.pos
    · exact h.above
    · exact fun b hmem => (h.below b hmem).trans (Nat.le_add_right _ _)
  · exact ⟨hb.base_pos, hb.base_le.trans (Nat.le_add_right _ _), hlimit, hb.limit_le⟩

/-- `morecore` gets nothing, or adds a block to the ring. -/
theorem morecore_runs (h : Ring s fs) (hb : Bounds s)
    (hfreep : s.freep ∈ s.base :: fs.map Block.addr) (hn : n < 2 ^ 27) :
    morecore n s = .ok 0 (refused s n) ∨
    ∃ s' fs', morecore n s = .ok s'.freep s' ∧ Grown s s' fs fs' n := by
  unfold morecore
  change (sbrk (wanted n) (toInt (wanted n * headerSize)) >>= _ : HeapM ℕ) s = _ ∨
    ∃ s' fs', (sbrk (wanted n) (toInt (wanted n * headerSize)) >>= _ : HeapM ℕ) s = _ ∧ _
  rw [bind_apply, toInt_wanted hn]
  obtain ⟨hle, hpos⟩ := wanted_spec n
  rcases sbrk_wanted s n with heq | ⟨hlimit, heq⟩
  · left
    rw [heq, ok_bind]
    rfl
  · right
    obtain ⟨hring, hbounds⟩ := h.granted hb hlimit
    have hb1 : Bounds { granted s n with hdr := s.hdr } :=
      ⟨hbounds.base_pos, hbounds.base_le, hbounds.brk_le, hbounds.limit_le⟩
    have hbrk : s.brk < (granted s n).brk := by
      change s.brk < s.brk + headerSize * wanted n
      unfold headerSize
      omega
    have hsize : ((granted s n).hdr s.brk).size = wanted n := by
      change (update s.hdr s.brk _ s.brk).size = wanted n
      rw [update_self]
    obtain ⟨s', fs', hfree, hf, hfreep'⟩ := free_runs hring hbounds hfreep hsize hpos hb.base_le
      le_rfl fun b hmem => .inl (h.below b hmem)
    refine ⟨s', fs', ?_, ?_⟩
    · rw [heq, ok_bind]
      change (setSize s.brk (wanted n) >>= _ : HeapM ℕ) _ = _
      rw [bind_apply, setSize, hb1.setHeader_eq hbrk, ok_bind, bind_apply]
      change (free (s.brk + headerSize) (granted s n)).bind _ = _
      rw [hfree, ok_bind]
      rfl
    · have hbounds' : Bounds s' := by
        rw [hf.state]
        exact ⟨hbounds.base_pos, hbounds.base_le, hbounds.brk_le, hbounds.limit_le⟩
      refine ⟨hbounds', hf.ring, hfreep', ?_, hf.cover, hf.addrs, ?_, hf.state⟩
      · obtain ⟨b, hmem, hfits⟩ := hf.fits
        exact ⟨b, hmem, hle.trans hfits⟩
      · intro x hx hring'
        rw [hf.frame x hx.ne hring']
        exact update_of_ne hx.ne _ _

/-- The ring has at most one block more. -/
theorem Grown.length_le (h : Grown s s' fs fs' n) : fs'.length ≤ fs.length + 1 := by
  have hnodup : (fs'.map Block.addr).Nodup := (List.nodup_cons.mp h.ring.nodup).2
  have hsub : fs'.map Block.addr ⊆ s.brk :: fs.map Block.addr := by
    intro x hx
    obtain ⟨b, hmem, rfl⟩ := mem_map.mp hx
    rcases h.addrs b hmem with heq | ⟨c, hc, heq⟩
    · exact heq ▸ mem_cons_self
    · exact heq ▸ mem_cons_of_mem _ (mem_map_of_mem hc)
  have hlen := (hnodup.subperm hsub).length_le
  rwa [length_cons, length_map, length_map] at hlen

/-- The rounds suffice for the ring. -/
theorem Ring.rounds_eq (h : Ring s fs) (hb : Bounds s) :
    rounds s = fs.length + 1 + (rounds s - (fs.length + 1)) := by
  have hlen := h.length_le hb
  unfold rounds
  omega

/-- The search takes a free block, or it gets nothing from the kernel, or it takes a block after
it has got more memory. -/
theorem search_runs (h : Ring s fs) (hb : Bounds s)
    (hfreep : s.freep ∈ s.base :: fs.map Block.addr) (hpos : 0 < n) (hn : n < 2 ^ 27) :
    (∃ s' fs' q, mallocLoop n (rounds s) s.freep (next s s.freep) s = .ok (q + headerSize) s' ∧
      Taken s s' fs fs' q n) ∨
    mallocLoop n (rounds s) s.freep (next s s.freep) s = .ok 0 (refused s n) ∨
    ∃ s1 fs1 s' fs' q, mallocLoop n (rounds s) s.freep (next s s.freep) s =
        .ok (q + headerSize) s' ∧ Grown s s1 fs fs1 n ∧ Taken s1 s' fs1 fs' q n := by
  have hlen := h.length_le hb
  rw [h.rounds_eq hb]
  rcases mallocLoop_runs h hb hfreep hpos (rounds s - (fs.length + 1)) with htaken | ⟨-, hrun⟩
  · left
    exact htaken
  right
  rw [hrun, extend, bind_apply]
  rcases morecore_runs h hb hfreep hn with heq | ⟨s1, fs1, heq, hg⟩
  · left
    rw [heq, ok_bind]
    rfl
  right
  have hlen1 := hg.length_le
  have hne : s1.freep ≠ 0 := by
    have hbase := hg.bounds.base_pos
    rcases mem_cons.mp hg.freep with hz | hz
    · omega
    · have := (pairwise_cons.mp hg.ring.increasing).1 _ hz
      omega
  have hfuel : rounds s - (fs.length + 1) =
      fs1.length + 1 + (rounds s - (fs.length + 1) - (fs1.length + 1)) := by
    unfold rounds
    omega
  rw [heq, ok_bind, if_neg hne, bind_apply,
    hg.bounds.header_eq (hg.ring.lt_brk hg.bounds hg.freep), ok_bind]
  change ∃ s2 fs2 s' fs' q, mallocLoop n _ s1.freep (next s1 s1.freep) s1 = _ ∧ _
  rw [hfuel]
  rcases mallocLoop_runs hg.ring hg.bounds hg.freep hpos
      (rounds s - (fs.length + 1) - (fs1.length + 1)) with ⟨s', fs', q, hrun, ht⟩ | ⟨hsmall, -⟩
  · exact ⟨s1, fs1, s', fs', q, hrun, hg, ht⟩
  · obtain ⟨b, hmem, hfits⟩ := hg.fits
    have := hsmall b hmem
    omega

end RiscvKernel.Heap
