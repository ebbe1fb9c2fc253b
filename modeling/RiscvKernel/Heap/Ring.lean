import RiscvKernel.Heap.Model
import RiscvKernel.Vm.Space
import RiscvKernel.Lib.Chain
import RiscvKernel.Lib.Ranges
import Mathlib.Data.Finset.Card
import Mathlib.Data.Finset.Range

/-!
# The ring of free blocks

The free blocks are linked in the order of their addresses, `base` first, and the last one points
back to `base`. No two of them are adjacent. The loop of `free` finds the place of a block in
this order from wherever it starts, and the two joins put the block there.
-/

namespace RiscvKernel.Heap

open Threads Function
open Threads.Seq (bind_apply ok_bind)
open List (cons_append length_append length_cons length_map map_append map_cons mem_append
  mem_append_left mem_append_right mem_cons mem_cons_of_mem mem_cons_self mem_map mem_map_of_mem
  pairwise_append pairwise_cons)

variable {s s' : State} {fs pre post : List Block} {E : String → Prop} {a bp n : ℕ}

/-- The pointers of the headers. -/
def next (s : State) (a : ℕ) : ℕ := (s.hdr a).ptr

/-- Where the allocator's memory lies. -/
structure Bounds (s : State) : Prop where
  /-- `base` is not at address 0. -/
  base_pos : 0 < s.base
  /-- It lies below the break. -/
  base_le : s.base + headerSize ≤ s.brk
  /-- The break is what the kernel grants. -/
  brk_le : s.brk ≤ s.limit
  /-- The kernel grants less than a size can count. -/
  limit_le : s.limit ≤ 2 ^ 36

/-- The free blocks. -/
structure Ring (s : State) (fs : List Block) : Prop where
  /-- They are linked. -/
  leads : Chain.Leads (next s) s.base (fs.map Block.addr) s.base
  /-- Their headers hold their sizes. -/
  size : ∀ b ∈ fs, (s.hdr b.addr).size = b.size
  /-- `base` has no size. -/
  baseSize : (s.hdr s.base).size = 0
  /-- They are in order, and none touches the next. -/
  sorted : fs.Pairwise fun b c => b.stop < c.addr
  /-- None is empty. -/
  pos : ∀ b ∈ fs, 0 < b.size
  /-- They lie above `base`. -/
  above : ∀ b ∈ fs, s.base + headerSize ≤ b.addr
  /-- They lie below the break. -/
  below : ∀ b ∈ fs, b.stop ≤ s.brk

theorem Block.addr_lt_stop {b : Block} (h : 0 < b.size) : b.addr < b.stop := by
  unfold Block.stop headerSize
  omega

/-- A header below the break can be read. -/
theorem header_eq (hmax : s.brk ≤ maxva) (ha : a < s.brk) : header a s = .ok (s.hdr a) s := by
  rw [header, if_pos (ha.trans_le (pgroundup_eq hmax).2.1)]

/-- A header below the break can be stored. -/
theorem setHeader_eq (hmax : s.brk ≤ maxva) (ha : a < s.brk) (f : Header → Header) :
    setHeader a f s = .ok () { s with hdr := update s.hdr a (f (s.hdr a)) } := by
  rw [setHeader, if_pos (ha.trans_le (pgroundup_eq hmax).2.1)]

theorem Bounds.brk_le_maxva (h : Bounds s) : s.brk ≤ maxva := by
  have hmax : (2 : ℕ) ^ 36 ≤ maxva := by decide
  exact (h.brk_le.trans h.limit_le).trans hmax

/-- A header below the break is read. -/
theorem Bounds.header_eq (h : Bounds s) (ha : a < s.brk) : header a s = .ok (s.hdr a) s :=
  Heap.header_eq h.brk_le_maxva ha

/-- A header below the break is stored. -/
theorem Bounds.setHeader_eq (h : Bounds s) (ha : a < s.brk) (f : Header → Header) :
    setHeader a f s = .ok () { s with hdr := update s.hdr a (f (s.hdr a)) } :=
  Heap.setHeader_eq h.brk_le_maxva ha f

/-- A header is stored, its size first. -/
theorem Bounds.setBoth_eq (h : Bounds s) (ha : a < s.brk) (ptr size : ℕ) :
    (do setSize a size; setPtr a ptr : HeapM Unit) s =
      .ok () { s with hdr := update s.hdr a ⟨ptr, size⟩ } := by
  rw [bind_apply, setSize, h.setHeader_eq ha, ok_bind, setPtr]
  have hb : Bounds { s with hdr := update s.hdr a ⟨(s.hdr a).ptr, size⟩ } :=
    ⟨h.base_pos, h.base_le, h.brk_le, h.limit_le⟩
  rw [hb.setHeader_eq ha]
  dsimp only
  rw [update_idem, update_self]

/-- The addresses increase. -/
theorem Ring.increasing (h : Ring s fs) : (s.base :: fs.map Block.addr).Pairwise (· < ·) := by
  refine List.Pairwise.cons (fun a ha => ?_) ?_
  · obtain ⟨b, hb, rfl⟩ := mem_map.mp ha
    have := h.above b hb
    unfold headerSize at this
    omega
  · rw [List.pairwise_map]
    refine h.sorted.imp_of_mem fun {b c} hb _ hlt => ?_
    exact (Block.addr_lt_stop (h.pos b hb)).trans hlt

/-- No block is on the list twice. -/
theorem Ring.nodup (h : Ring s fs) : (s.base :: fs.map Block.addr).Nodup :=
  h.increasing.imp fun hlt => hlt.ne

/-- Every header of the ring lies below the break. -/
theorem Ring.lt_brk (h : Ring s fs) (hb : Bounds s) (ha : a ∈ s.base :: fs.map Block.addr) :
    a < s.brk := by
  rcases mem_cons.mp ha with rfl | ha
  · have := hb.base_le
    unfold headerSize at this
    omega
  · obtain ⟨b, hmem, rfl⟩ := mem_map.mp ha
    exact (Block.addr_lt_stop (h.pos b hmem)).trans_le (h.below b hmem)

/-- There are fewer blocks than rounds of a loop. -/
theorem Ring.length_le (h : Ring s fs) (hb : Bounds s) : fs.length < s.brk := by
  have hsub : (s.base :: fs.map Block.addr).toFinset ⊆ Finset.range s.brk := by
    intro a ha
    exact Finset.mem_range.mpr (h.lt_brk hb (List.mem_toFinset.mp ha))
  have hcard := Finset.card_le_card hsub
  rw [List.toFinset_card_of_nodup h.nodup, Finset.card_range, length_cons,
    length_map] at hcard
  omega

/-! ## The place of a block -/

/-- The last free block before the place. -/
def lastOf (a : ℕ) (l : List ℕ) : ℕ := (a :: l).getLast (List.cons_ne_nil a l)

theorem lastOf_mem (a : ℕ) (l : List ℕ) : lastOf a l ∈ a :: l := List.getLast_mem _

theorem lastOf_cons (a c : ℕ) (l : List ℕ) : lastOf a (c :: l) = lastOf c l := by
  unfold lastOf
  rw [List.getLast_cons (List.cons_ne_nil c l)]

theorem lastOf_append (a c : ℕ) (l l' : List ℕ) : lastOf a (l ++ c :: l') = lastOf c l' := by
  induction l generalizing a with
  | nil => exact lastOf_cons a c l'
  | cons d l ih => rw [cons_append, lastOf_cons, ih]

/-- One round of the loop. -/
theorem place_succ (hb : Bounds s) (ha : a < s.brk) (fuel : ℕ) :
    place bp (fuel + 1) a s = if bp > a ∧ bp < next s a then .ok a s
      else if a ≥ next s a ∧ (bp > a ∨ bp < next s a) then .ok a s
      else place bp fuel (next s a) s := by
  rw [place, bind_apply, hb.header_eq ha, ok_bind]
  change (if bp > a ∧ bp < next s a then pure a
    else if a ≥ next s a ∧ (bp > a ∨ bp < next s a) then pure a
    else place bp fuel (next s a) : HeapM ℕ) s = _
  split
  · rfl
  · split <;> rfl

/-- From a block below `bp` the loop goes up to the last one below. -/
theorem place_up {l l' : List ℕ} {fuel : ℕ} (hb : Bounds s)
    (hleads : Chain.Leads (next s) a (l ++ l') s.base) (hinc : (a :: (l ++ l')).Pairwise (· < ·))
    (hbrk : ∀ x ∈ a :: (l ++ l'), x < s.brk) (hbase : s.base ≤ a) (ha : a < bp)
    (hl : ∀ x ∈ l, x < bp) (hl' : ∀ x ∈ l', bp < x) :
    place bp (l.length + 1 + fuel) a s = .ok (lastOf a l) s := by
  -- The induction is on the blocks still to pass.
  induction l generalizing a with
  | nil =>
    have hnext : (bp < next s a) ∨ (next s a = s.base ∧ l' = []) := by
      cases l' with
      | nil => exact .inr ⟨hleads, rfl⟩
      | cons c l' => exact .inl (hleads.1 ▸ hl' c mem_cons_self)
    rw [show ([] : List ℕ).length + 1 + fuel = fuel + 1 by rw [List.length_nil]; omega,
      place_succ hb (hbrk a mem_cons_self)]
    rcases hnext with hlt | ⟨heq, -⟩
    · rw [if_pos ⟨ha, hlt⟩]
      rfl
    · rw [heq, if_neg (by omega), if_pos ⟨hbase, .inl ha⟩]
      rfl
  | cons d l ih =>
    obtain ⟨hd, hleads⟩ := hleads
    have hlt : a < d := (pairwise_cons.mp hinc).1 d mem_cons_self
    have hdbp : d < bp := hl d mem_cons_self
    rw [show (d :: l).length + 1 + fuel = l.length + 1 + fuel + 1 by rw [length_cons]; omega,
      place_succ hb (hbrk a mem_cons_self), hd, if_neg (by omega), if_neg (by omega), lastOf_cons]
    exact ih hleads (pairwise_cons.mp hinc).2 (fun x hx => hbrk x (mem_cons_of_mem _ hx))
      (by omega) hdbp fun x hx => hl x (mem_cons_of_mem _ hx)

/-- From a block above `bp` the loop goes round to `base`. -/
theorem place_round {l : List ℕ} {fuel : ℕ} (hb : Bounds s)
    (hleads : Chain.Leads (next s) a l s.base) (hinc : (a :: l).Pairwise (· < ·))
    (hbrk : ∀ x ∈ a :: l, x < s.brk) (hbase : s.base < bp) (ha : bp < a) :
    place bp (l.length + 1 + fuel) a s = place bp fuel s.base s := by
  induction l generalizing a with
  | nil =>
    have hleads : next s a = s.base := hleads
    rw [show ([] : List ℕ).length + 1 + fuel = fuel + 1 by rw [List.length_nil]; omega,
      place_succ hb (hbrk a mem_cons_self), hleads, if_neg (by omega), if_neg (by omega)]
  | cons d l ih =>
    obtain ⟨hd, hleads⟩ := hleads
    have hlt : a < d := (pairwise_cons.mp hinc).1 d mem_cons_self
    rw [show (d :: l).length + 1 + fuel = l.length + 1 + fuel + 1 by rw [length_cons]; omega,
      place_succ hb (hbrk a mem_cons_self), hd, if_neg (by omega), if_neg (by omega)]
    exact ih hleads (pairwise_cons.mp hinc).2 (fun x hx => hbrk x (mem_cons_of_mem _ hx))
      (by omega)

/-- The loop of `free` ends at the last free block below `bp`, or at `base`. -/
theorem place_eq (h : Ring s (pre ++ post)) (hb : Bounds s)
    (hfreep : s.freep ∈ s.base :: (pre ++ post).map Block.addr) (hbase : s.base < bp)
    (hpre : ∀ b ∈ pre, b.addr < bp) (hpost : ∀ b ∈ post, bp < b.addr) :
    place bp (rounds s) s.freep s = .ok (lastOf s.base (pre.map Block.addr)) s := by
  have hinc := h.increasing
  have hbrk : ∀ x ∈ s.base :: (pre ++ post).map Block.addr, x < s.brk := fun x hx => h.lt_brk hb hx
  have hlen := h.length_le hb
  have hleads := h.leads
  rw [map_append] at hinc hbrk hleads hfreep
  rw [length_append] at hlen
  have hpre' : ∀ x ∈ pre.map Block.addr, x < bp := by
    intro x hx
    obtain ⟨b, hmem, rfl⟩ := mem_map.mp hx
    exact hpre b hmem
  have hpost' : ∀ x ∈ post.map Block.addr, bp < x := by
    intro x hx
    obtain ⟨b, hmem, rfl⟩ := mem_map.mp hx
    exact hpost b hmem
  have hlen1 : (pre.map Block.addr).length = pre.length := length_map _
  have hlen2 : (post.map Block.addr).length = post.length := length_map _
  generalize pre.map Block.addr = l at *
  generalize post.map Block.addr = l' at *
  -- From `base` the loop finds the place with any fuel that passes the blocks below it.
  have hfrom : ∀ fuel, l.length + 1 ≤ fuel → place bp fuel s.base s = .ok (lastOf s.base l) s := by
    intro fuel hfuel
    obtain ⟨extra, rfl⟩ := Nat.exists_eq_add_of_le hfuel
    exact place_up hb hleads hinc hbrk le_rfl hbase hpre' hpost'
  have hrounds : rounds s = 2 * s.brk + 4 := rfl
  rcases mem_cons.mp hfreep with heq | hmem
  · rw [heq]
    exact hfrom _ (by omega)
  rcases mem_append.mp hmem with hmem | hmem
  · obtain ⟨l1, l2, hl⟩ := List.append_of_mem hmem
    have hsplit : l ++ l' = l1 ++ s.freep :: (l2 ++ l') := by simp [hl]
    rw [hsplit] at hleads hinc hbrk
    have hinc' := (pairwise_append.mp (pairwise_cons.mp hinc).2).2.1
    have hfree : s.base < s.freep := (pairwise_cons.mp hinc).1 _ (by simp)
    have hlast : lastOf s.base l = lastOf s.freep l2 := by rw [hl, lastOf_append]
    have hsum : l.length = l1.length + 1 + l2.length := by
      rw [hl, length_append, length_cons]
      omega
    obtain ⟨extra, hextra⟩ := Nat.exists_eq_add_of_le (show l2.length + 1 ≤ rounds s by omega)
    rw [hlast, hextra]
    refine place_up hb (Chain.leads_append.mp hleads).2 hinc' (fun x hx => hbrk x ?_) hfree.le
      (hpre' _ hmem) (fun x hx => hpre' x ?_) hpost'
    · exact mem_cons_of_mem _ (mem_append_right _ hx)
    · rw [hl]
      exact mem_append_right _ (mem_cons_of_mem _ hx)
  · obtain ⟨l1, l2, hl⟩ := List.append_of_mem hmem
    have hsplit : l ++ l' = (l ++ l1) ++ s.freep :: l2 := by simp [hl]
    have hsum : l'.length = l1.length + 1 + l2.length := by
      rw [hl, length_append, length_cons]
      omega
    have hround : place bp (l2.length + 1 + (rounds s - (l2.length + 1))) s.freep s =
        place bp (rounds s - (l2.length + 1)) s.base s := by
      rw [hsplit] at hleads hinc hbrk
      have hinc' := (pairwise_append.mp (pairwise_cons.mp hinc).2).2.1
      refine place_round hb (Chain.leads_append.mp hleads).2 hinc' (fun x hx => hbrk x ?_) hbase
        (hpost' _ hmem)
      exact mem_cons_of_mem _ (mem_append_right _ hx)
    rw [show rounds s = l2.length + 1 + (rounds s - (l2.length + 1)) by omega, hround]
    exact hfrom _ (by omega)

/-! ## Putting a block there -/

/-- The byte `x` lies in one of the blocks. -/
def Covers (fs : List Block) (x : ℕ) : Prop := ∃ b ∈ fs, b.addr ≤ x ∧ x < b.stop

/-- A block at `bp` of `n` units whose place is between the free blocks `pre` and `post`. -/
structure Between (s : State) (pre post : List Block) (bp n : ℕ) : Prop where
  /-- Its header holds its size. -/
  size : (s.hdr bp).size = n
  /-- It is not empty. -/
  pos : 0 < n
  /-- It lies above `base`. -/
  above : s.base + headerSize ≤ bp
  /-- It lies below the break. -/
  below : bp + headerSize * n ≤ s.brk
  /-- The blocks before it end before it. -/
  pre_le : ∀ b ∈ pre, b.stop ≤ bp
  /-- The blocks after it begin after it. -/
  post_le : ∀ b ∈ post, bp + headerSize * n ≤ b.addr

/-- The block may be joined with the one above; it is linked to what follows. -/
structure Joined (s s' : State) (post post' : List Block) (bp n n' : ℕ) : Prop where
  /-- Only the header of the block changes. -/
  state : s' = { s with hdr := update s.hdr bp (s'.hdr bp) }
  /-- It holds the size. -/
  size : (s'.hdr bp).size = n'
  /-- It is linked to the rest of the ring. -/
  leads : Chain.Leads (next s') bp (post'.map Block.addr) s.base
  /-- The rest is what was above, or all but the first block. -/
  rest : ∀ b ∈ post', b ∈ post
  /-- The rest is in order, and not adjacent. -/
  sorted : (⟨bp, n'⟩ :: post').Pairwise fun b c => b.stop < c.addr
  /-- The block has grown. -/
  le : n ≤ n'
  /-- It lies below the break. -/
  below : bp + headerSize * n' ≤ s.brk
  /-- No byte is lost. -/
  cover : ∀ x, Covers (⟨bp, n'⟩ :: post') x ↔ Covers (⟨bp, n⟩ :: post) x

/-- The bytes of the first block, or of another. -/
theorem covers_cons {b : Block} {x : ℕ} :
    Covers (b :: fs) x ↔ (b.addr ≤ x ∧ x < b.stop) ∨ Covers fs x := by
  simp [Covers]

theorem covers_append {fs' : List Block} {x : ℕ} :
    Covers (fs ++ fs') x ↔ Covers fs x ∨ Covers fs' x := by
  simp only [Covers, mem_append, or_and_right, exists_or]

/-- The blocks above are sorted. -/
theorem Ring.sorted_post (h : Ring s (pre ++ post)) :
    post.Pairwise fun b c => b.stop < c.addr :=
  (pairwise_append.mp h.sorted).2.1

/-- The join with the block above. -/
theorem joinUpper_runs (h : Ring s (pre ++ post)) (hb : Bounds s) (hbt : Between s pre post bp n) :
    ∃ s' post' n', joinUpper bp (lastOf s.base (pre.map Block.addr)) s = .ok () s' ∧
      Joined s s' post post' bp n n' := by
  have hleads := h.leads
  rw [map_append] at hleads
  have hrest := hleads.drop
  have hmem : lastOf s.base (pre.map Block.addr) ∈ s.base :: (pre ++ post).map Block.addr := by
    rw [map_append, ← cons_append]
    exact mem_append_left _ (lastOf_mem _ _)
  have hp := h.lt_brk hb hmem
  have hpos := hbt.pos
  have hbelow := hbt.below
  have habove := hbt.above
  have hbase := hb.base_pos
  have hlimit := hb.brk_le.trans hb.limit_le
  have hsorted := h.sorted_post
  have hsize := hbt.size
  have hbp : bp < s.brk := by
    unfold headerSize at hbelow
    omega
  change Chain.Leads (next s) (lastOf s.base (pre.map Block.addr))
    (post.map Block.addr) s.base at hrest
  generalize lastOf s.base (pre.map Block.addr) = p at hrest hp
  have hnotmem : ∀ x ∈ post.map Block.addr, x ≠ bp := by
    intro x hx
    obtain ⟨b, hmem, rfl⟩ := mem_map.mp hx
    have := hbt.post_le b hmem
    unfold headerSize at this
    omega
  unfold joinUpper
  rw [bind_apply, hb.header_eq hp, ok_bind, bind_apply, hb.header_eq hbp, ok_bind,
    hsize]
  by_cases hjoin : bp + headerSize * n = (s.hdr p).ptr
  · rw [if_pos hjoin]
    cases post with
    | nil =>
      have hrest : (s.hdr p).ptr = s.base := hrest
      unfold headerSize at *
      omega
    | cons q post' =>
      obtain ⟨hq, hrest⟩ := hrest
      have hq : (s.hdr p).ptr = q.addr := hq
      rw [hq] at hjoin ⊢
      have hqmem : q ∈ pre ++ q :: post' := mem_append_right _ mem_cons_self
      have hqstop := h.below q hqmem
      have hqbrk := h.lt_brk hb (mem_cons_of_mem _ (mem_map_of_mem hqmem))
      have hqsize := h.size q hqmem
      have hstop : (⟨bp, n + q.size⟩ : Block).stop = q.stop := by
        simp only [Block.stop, headerSize] at hjoin ⊢
        omega
      have hnowrap : (n + q.size) % 2 ^ 32 = n + q.size := by
        rw [← hstop] at hqstop
        simp only [Block.stop, headerSize] at hqstop habove
        omega
      rw [bind_apply, hb.header_eq hqbrk, ok_bind, hqsize, hnowrap, hb.setBoth_eq hbp]
      refine ⟨_, post', n + q.size, rfl, ?_, ?_, ?_, ?_, ?_, by omega, ?_, ?_⟩
      · dsimp only
        rw [update_self]
      · dsimp only
        rw [update_self]
      · refine hrest.relink ?_ fun x hx => ?_
        · unfold next
          dsimp only
          rw [update_self]
        · have hne := hnotmem x (mem_cons_of_mem _ hx)
          unfold next
          dsimp only
          rw [update_of_ne hne]
      · exact fun b hmem => mem_cons_of_mem _ hmem
      · obtain ⟨hfirst, hothers⟩ := pairwise_cons.mp hsorted
        refine List.Pairwise.cons (fun b hmem => ?_) hothers
        rw [hstop]
        exact hfirst b hmem
      · rw [← hstop] at hqstop
        exact hqstop
      · intro x
        rw [covers_cons, covers_cons, covers_cons, hstop]
        have hqaddr : q.addr = (⟨bp, n⟩ : Block).stop := hjoin.symm
        have hlt := Block.addr_lt_stop (h.pos q hqmem)
        have hge : bp ≤ (⟨bp, n⟩ : Block).stop := Nat.le_add_right _ _
        rw [← or_assoc]
        refine or_congr_left ?_
        dsimp only
        omega
  · rw [if_neg hjoin, setPtr, hb.setHeader_eq hbp]
    refine ⟨_, post, n, rfl, ?_, ?_, ?_, fun b hmem => hmem, ?_, le_rfl, hbelow, fun x => Iff.rfl⟩
    · dsimp only
      rw [update_self]
    · dsimp only
      rw [update_self]
      exact hsize
    · refine hrest.relink ?_ fun x hx => ?_
      · unfold next
        dsimp only
        rw [update_self]
      · unfold next
        dsimp only
        rw [update_of_ne (hnotmem x hx)]
    · refine List.Pairwise.cons (fun b hmem => ?_) hsorted
      change bp + headerSize * n < b.addr
      have hle := hbt.post_le b hmem
      cases post with
      | nil => cases hmem
      | cons q post' =>
        have hq : (s.hdr p).ptr = q.addr := hrest.1
        rw [hq] at hjoin
        have hqle := hbt.post_le q mem_cons_self
        rcases mem_cons.mp hmem with rfl | hmem
        · omega
        · have hlt := (pairwise_cons.mp hsorted).1 b hmem
          have hqs : q.addr ≤ q.stop := Nat.le_add_right _ _
          omega

/-- What `free` does with the block at `bp` of `n` units: the free blocks were `fs` and are now
`fs'`. -/
structure Freed (s s' : State) (fs fs' : List Block) (bp n : ℕ) : Prop where
  /-- The ring is in order. -/
  ring : Ring s' fs'
  /-- The bytes of the block are free, too. -/
  cover : ∀ x, Covers fs' x ↔ Covers fs x ∨ (bp ≤ x ∧ x < bp + headerSize * n)
  /-- No block begins at a new address. -/
  addrs : ∀ b ∈ fs', b.addr = bp ∨ ∃ c ∈ fs, b.addr = c.addr
  /-- There is a free block of this size. -/
  fits : ∃ b ∈ fs', n ≤ b.size
  /-- The headers of other blocks stay. -/
  frame : ∀ x, x ≠ bp → x ∉ s.base :: fs.map Block.addr → s'.hdr x = s.hdr x
  /-- Nothing else changes. -/
  state : s' = { s with hdr := s'.hdr, freep := s'.freep }

/-- Other headers stay. -/
theorem Joined.hdr_of_ne {post' : List Block} {n' x : ℕ} (h : Joined s s' post post' bp n n')
    (hx : x ≠ bp) : s'.hdr x = s.hdr x := by
  rw [h.state]
  exact update_of_ne hx _ _

/-- The break stays. -/
theorem Joined.bounds {post' : List Block} {n' : ℕ} (h : Joined s s' post post' bp n n')
    (hb : Bounds s) : Bounds s' := by
  rw [h.state]
  exact ⟨hb.base_pos, hb.base_le, hb.brk_le, hb.limit_le⟩

/-- The free blocks on both sides of a block do not begin where it does. -/
theorem Between.addr_lt (h : Ring s (pre ++ post)) (hbt : Between s pre post bp n) {x : ℕ}
    (hx : x ∈ s.base :: pre.map Block.addr) : x < bp := by
  rcases mem_cons.mp hx with rfl | hx
  · have := hbt.above
    unfold headerSize at this
    omega
  · obtain ⟨b, hmem, rfl⟩ := mem_map.mp hx
    exact (Block.addr_lt_stop (h.pos b (mem_append_left _ hmem))).trans_le (hbt.pre_le b hmem)

/-- The block lies below those after it. -/
theorem Between.lt_addr (hbt : Between s pre post bp n) {b : Block} (hmem : b ∈ post) :
    bp < b.addr := by
  have hle := hbt.post_le b hmem
  have hpos := hbt.pos
  unfold headerSize at hle
  omega

/-- A ring in which a block `c` follows the blocks `as` and is followed by `bs`, whose sizes have
not changed. -/
theorem Ring.rebuild {as bs : List Block} {c : Block} (h : Ring s fs)
    (hbase : s'.base = s.base) (hbrk : s'.brk = s.brk)
    (hsub : ∀ b ∈ as ++ bs, b ∈ fs)
    (hsizes : ∀ b ∈ as ++ bs, (s'.hdr b.addr).size = (s.hdr b.addr).size)
    (hbaseSize : (s'.hdr s.base).size = 0)
    (hfirst : Chain.Leads (next s') s.base (as.map Block.addr) c.addr)
    (hlast : Chain.Leads (next s') c.addr (bs.map Block.addr) s.base)
    (hsize : (s'.hdr c.addr).size = c.size) (hpos : 0 < c.size)
    (habove : s.base + headerSize ≤ c.addr) (hbelow : c.stop ≤ s.brk)
    (has : as.Pairwise fun b c => b.stop < c.addr)
    (hbs : (c :: bs).Pairwise fun b c => b.stop < c.addr)
    (hcross : ∀ b ∈ as, ∀ d ∈ c :: bs, b.stop < d.addr) : Ring s' (as ++ c :: bs) := by
  have hmem : ∀ {b}, b ∈ as ++ c :: bs → b = c ∨ b ∈ as ++ bs := by
    intro b hb
    simp only [mem_append, mem_cons] at hb ⊢
    tauto
  constructor
  · rw [hbase, map_append, map_cons]
    exact Chain.leads_append.mpr ⟨hfirst, hlast⟩
  · intro b hb
    rcases hmem hb with rfl | hb
    · exact hsize
    · rw [hsizes b hb]
      exact h.size b (hsub b hb)
  · rw [hbase]
    exact hbaseSize
  · exact pairwise_append.mpr ⟨has, hbs, hcross⟩
  · intro b hb
    rcases hmem hb with rfl | hb
    · exact hpos
    · exact h.pos b (hsub b hb)
  · rw [hbase]
    intro b hb
    rcases hmem hb with rfl | hb
    · exact habove
    · exact h.above b (hsub b hb)
  · rw [hbrk]
    intro b hb
    rcases hmem hb with rfl | hb
    · exact hbelow
    · exact h.below b (hsub b hb)

section Lower

variable {s1 : State} {post' : List Block} {n' p : ℕ}

/-- The free blocks below the block end before it, unless the last one is adjacent. -/
theorem Between.stop_lt (h : Ring s (pre ++ post)) (hbt : Between s pre post bp n)
    (hne : lastOf s.base (pre.map Block.addr) +
      headerSize * (s.hdr (lastOf s.base (pre.map Block.addr))).size ≠ bp) :
    ∀ b ∈ pre, b.stop < bp := by
  intro b hmem
  rcases List.eq_nil_or_concat pre with rfl | ⟨pre0, k, rfl⟩
  · cases hmem
  rw [List.concat_eq_append] at *
  have hk : k ∈ (pre0 ++ [k]) ++ post := by simp
  rw [map_append, List.map_singleton, lastOf_append] at hne
  change k.addr + headerSize * (s.hdr k.addr).size ≠ bp at hne
  rw [h.size k hk] at hne
  have hkle : k.addr + headerSize * k.size ≤ bp := hbt.pre_le k (by simp)
  have hklt : k.addr + headerSize * k.size < bp := by omega
  rcases mem_append.mp hmem with hmem | hmem
  · have hsorted := (pairwise_append.mp h.sorted).1
    have hlt := (pairwise_append.mp hsorted).2.2 b hmem k mem_cons_self
    omega
  · rw [List.mem_singleton.mp hmem]
    exact hklt

/-- The block below is pointed to the block. -/
theorem Joined.linked (h : Ring s (pre ++ post)) (hbt : Between s pre post bp n)
    (hj : Joined s s1 post post' bp n n') (hp : p = lastOf s.base (pre.map Block.addr))
    (hne : p + headerSize * (s.hdr p).size ≠ bp) :
    Freed s { s1 with hdr := update s1.hdr p ⟨bp, (s.hdr p).size⟩ } (pre ++ post)
      (pre ++ ⟨bp, n'⟩ :: post') bp n := by
  have hlow : p ∈ s.base :: pre.map Block.addr := hp ▸ lastOf_mem _ _
  have hplt := hbt.addr_lt h hlow
  have hle := hj.le
  have hpos := hbt.pos
  have hleads := h.leads
  rw [map_append] at hleads
  have hinc := h.increasing
  rw [map_append, ← cons_append] at hinc
  have hnodup : (s.base :: pre.map Block.addr).Nodup :=
    (pairwise_append.mp hinc).1.imp fun hlt => hlt.ne
  have hpost : ∀ b ∈ post', bp < b.addr := fun b hmem => hbt.lt_addr (hj.rest b hmem)
  have hbaselt := hbt.addr_lt h mem_cons_self
  have hhdr : ∀ x, x ≠ bp → x ≠ p →
      update s1.hdr p ⟨bp, (s.hdr p).size⟩ x = s.hdr x := by
    intro x hx hxp
    rw [update_of_ne hxp, hj.hdr_of_ne hx]
  have hsizes : ∀ x, x ≠ bp →
      (update s1.hdr p ⟨bp, (s.hdr p).size⟩ x).size = (s.hdr x).size := by
    intro x hx
    by_cases hxp : x = p
    · rw [hxp, update_self]
    · rw [hhdr x hx hxp]
  have hbase : s1.base = s.base := by rw [hj.state]
  have hbrk : s1.brk = s.brk := by rw [hj.state]
  constructor
  · refine h.rebuild hbase hbrk ?_ ?_ ?_ ?_ ?_ ?_ ?_ hbt.above hj.below ?_ hj.sorted ?_
    · intro b hmem
      rcases mem_append.mp hmem with hmem | hmem
      · exact mem_append_left _ hmem
      · exact mem_append_right _ (hj.rest b hmem)
    · intro b hmem
      apply hsizes
      rcases mem_append.mp hmem with hmem | hmem
      · exact (hbt.addr_lt h (mem_cons_of_mem _ (mem_map_of_mem hmem))).ne
      · exact (hpost b hmem).ne'
    · exact (hsizes _ hbaselt.ne).trans h.baseSize
    · -- Up to the block below nothing changes, and that one gets the block as its successor.
      refine (Chain.Leads.redirect hleads.take hnodup bp).congr fun x hx => ?_
      change (update s1.hdr p ⟨bp, (s.hdr p).size⟩ x).ptr =
        update (next s) (lastOf s.base (pre.map Block.addr)) bp x
      rw [← hp]
      by_cases hxp : x = p
      · rw [hxp, update_self, update_self]
      · rw [hhdr x (hbt.addr_lt h hx).ne hxp, update_of_ne hxp]
        rfl
    · refine hj.leads.congr fun x hx => ?_
      have hxp : x ≠ p := by
        rcases mem_cons.mp hx with rfl | hx
        · exact hplt.ne'
        · obtain ⟨b, hmem, rfl⟩ := mem_map.mp hx
          exact (hplt.trans (hpost b hmem)).ne'
      change (update s1.hdr p ⟨bp, (s.hdr p).size⟩ x).ptr = (s1.hdr x).ptr
      rw [update_of_ne hxp]
    · change (update s1.hdr p ⟨bp, (s.hdr p).size⟩ bp).size = n'
      rw [update_of_ne hplt.ne']
      exact hj.size
    · exact hpos.trans_le hle
    · exact (pairwise_append.mp h.sorted).1
    · intro b hmem d hd
      rcases mem_cons.mp hd with rfl | hd
      · subst hp
        exact hbt.stop_lt h hne b hmem
      · exact (pairwise_append.mp h.sorted).2.2 b hmem d (hj.rest d hd)
  · intro x
    rw [covers_append, covers_append, hj.cover, covers_cons]
    change Covers pre x ∨ (bp ≤ x ∧ x < bp + headerSize * n) ∨ Covers post x ↔ _
    tauto
  · intro b hmem
    rcases mem_append.mp hmem with hmem | hmem
    · exact .inr ⟨b, mem_append_left _ hmem, rfl⟩
    rcases mem_cons.mp hmem with rfl | hmem
    · exact .inl rfl
    · exact .inr ⟨b, mem_append_right _ (hj.rest b hmem), rfl⟩
  · exact ⟨⟨bp, n'⟩, by simp, hle⟩
  · intro x hx hring
    refine hhdr x hx ?_
    rintro rfl
    rw [map_append, ← cons_append] at hring
    exact hring (mem_append_left _ hlow)
  · rw [hj.state]

/-- The block is joined with the block below. -/
theorem Joined.merged {k : Block} (h : Ring s ((pre ++ [k]) ++ post))
    (hbt : Between s (pre ++ [k]) post bp n) (hj : Joined s s1 post post' bp n n')
    (hk : k.stop = bp) :
    Freed s { s1 with hdr := update s1.hdr k.addr ⟨(s1.hdr bp).ptr, k.size + n'⟩ }
      ((pre ++ [k]) ++ post) (pre ++ ⟨k.addr, k.size + n'⟩ :: post') bp n := by
  have hle := hj.le
  have hbelow := hj.below
  have hkmem : k ∈ (pre ++ [k]) ++ post := by simp
  have hkpos := h.pos k hkmem
  have hklt : k.addr < bp := hk ▸ Block.addr_lt_stop hkpos
  have hkabove := h.above k hkmem
  have hstop : (⟨k.addr, k.size + n'⟩ : Block).stop = (⟨bp, n'⟩ : Block).stop := by
    simp only [Block.stop, headerSize] at hk ⊢
    omega
  have hleads := h.leads
  rw [List.append_assoc, List.singleton_append, map_append, map_cons] at hleads
  have hprelt : ∀ b ∈ pre, b.stop < k.addr := by
    intro b hmem
    exact (pairwise_append.mp (pairwise_append.mp h.sorted).1).2.2 b hmem k
      mem_cons_self
  have hprene : ∀ x ∈ s.base :: pre.map Block.addr, x < k.addr := by
    intro x hx
    rcases mem_cons.mp hx with rfl | hx
    · unfold headerSize at hkabove
      omega
    · obtain ⟨b, hmem, rfl⟩ := mem_map.mp hx
      exact (Nat.le_add_right _ _).trans_lt (hprelt b hmem)
  have hpost : ∀ b ∈ post', bp < b.addr := fun b hmem => hbt.lt_addr (hj.rest b hmem)
  have hhdr : ∀ x, x ≠ bp → x ≠ k.addr →
      update s1.hdr k.addr ⟨(s1.hdr bp).ptr, k.size + n'⟩ x = s.hdr x := by
    intro x hx hxk
    rw [update_of_ne hxk, hj.hdr_of_ne hx]
  have hbase : s1.base = s.base := by rw [hj.state]
  have hbrk : s1.brk = s.brk := by rw [hj.state]
  have hbaselt := hprene _ mem_cons_self
  have hcross := (pairwise_append.mp h.sorted).2.2
  constructor
  · refine h.rebuild hbase hbrk ?_ ?_ ?_ ?_ ?_ ?_ ?_ hkabove ?_ ?_ ?_ ?_
    · intro b hmem
      rcases mem_append.mp hmem with hmem | hmem
      · exact mem_append_left _ (mem_append_left _ hmem)
      · exact mem_append_right _ (hj.rest b hmem)
    · intro b hmem
      change (update s1.hdr k.addr ⟨(s1.hdr bp).ptr, k.size + n'⟩ b.addr).size = _
      rcases mem_append.mp hmem with hmem | hmem
      · have hlt := hprene _ (mem_cons_of_mem _ (mem_map_of_mem hmem))
        rw [hhdr _ (hlt.trans hklt).ne hlt.ne]
      · have hlt := hpost b hmem
        rw [hhdr _ hlt.ne' (hklt.trans hlt).ne']
    · change (update s1.hdr k.addr ⟨(s1.hdr bp).ptr, k.size + n'⟩ s.base).size = 0
      rw [hhdr _ (hbaselt.trans hklt).ne hbaselt.ne]
      exact h.baseSize
    · refine (Chain.leads_append.mp hleads).1.congr fun x hx => ?_
      have hlt := hprene x hx
      change (update s1.hdr k.addr ⟨(s1.hdr bp).ptr, k.size + n'⟩ x).ptr = next s x
      rw [hhdr x (hlt.trans hklt).ne hlt.ne]
      rfl
    · -- The block below takes over the successor of the block.
      refine hj.leads.relink ?_ fun x hx => ?_
      · change (update s1.hdr k.addr _ k.addr).ptr = (s1.hdr bp).ptr
        rw [update_self]
      · obtain ⟨b, hmem, rfl⟩ := mem_map.mp hx
        have hxk := (hklt.trans (hpost b hmem)).ne'
        change (update s1.hdr k.addr _ b.addr).ptr = (s1.hdr b.addr).ptr
        rw [update_of_ne hxk]
    · change (update s1.hdr k.addr _ k.addr).size = k.size + n'
      rw [update_self]
    · change 0 < k.size + n'
      omega
    · rw [hstop]
      exact hbelow
    · exact (pairwise_append.mp (pairwise_append.mp h.sorted).1).1
    · obtain ⟨hfirst, hothers⟩ := pairwise_cons.mp hj.sorted
      refine List.Pairwise.cons (fun b hmem => ?_) hothers
      rw [hstop]
      exact hfirst b hmem
    · intro b hmem d hd
      rcases mem_cons.mp hd with rfl | hd
      · exact hprelt b hmem
      · exact hcross b (mem_append_left _ hmem) d (hj.rest d hd)
  · intro x
    have hcover := hj.cover x
    rw [covers_cons, covers_cons] at hcover
    change _ ↔ (bp ≤ x ∧ x < bp + headerSize * n) ∨ _ at hcover
    rw [covers_append, covers_append, covers_append, covers_cons, covers_cons, hstop]
    have hnil : ¬ Covers [] x := by
      rintro ⟨b, hmem, -⟩
      cases hmem
    have hge : bp ≤ (⟨bp, n'⟩ : Block).stop := Nat.le_add_right _ _
    have hmid : (k.addr ≤ x ∧ x < (⟨bp, n'⟩ : Block).stop) ↔
        (k.addr ≤ x ∧ x < k.stop) ∨ (bp ≤ x ∧ x < (⟨bp, n'⟩ : Block).stop) := by
      rw [hk]
      omega
    change Covers pre x ∨ (k.addr ≤ x ∧ x < (⟨bp, n'⟩ : Block).stop) ∨ Covers post' x ↔ _
    rw [hmid, or_assoc, hcover]
    generalize Covers pre x = A, Covers post x = B, Covers [] x = C at *
    clear * - hnil
    tauto
  · intro b hmem
    rcases mem_append.mp hmem with hmem | hmem
    · exact .inr ⟨b, mem_append_left _ (mem_append_left _ hmem), rfl⟩
    rcases mem_cons.mp hmem with rfl | hmem
    · exact .inr ⟨k, hkmem, rfl⟩
    · exact .inr ⟨b, mem_append_right _ (hj.rest b hmem), rfl⟩
  · exact ⟨⟨k.addr, k.size + n'⟩, by simp, by dsimp only; omega⟩
  · intro x hx hring
    refine hhdr x hx ?_
    rintro rfl
    exact hring (mem_cons_of_mem _ (mem_map_of_mem hkmem))
  · rw [hj.state]

/-- The join with the block below. -/
theorem joinLower_runs (h : Ring s (pre ++ post)) (hb : Bounds s) (hbt : Between s pre post bp n)
    (hj : Joined s s1 post post' bp n n') :
    ∃ s2 fs', joinLower bp (lastOf s.base (pre.map Block.addr)) s1 = .ok () s2 ∧
      Freed s s2 (pre ++ post) fs' bp n ∧
      lastOf s.base (pre.map Block.addr) ∈ s.base :: fs'.map Block.addr := by
  have hb1 := hj.bounds hb
  have hbrk1 : s1.brk = s.brk := by rw [hj.state]
  have hlow := lastOf_mem s.base (pre.map Block.addr)
  have hplt := hbt.addr_lt h hlow
  have hle := hj.le
  have hpos := hbt.pos
  have hbelow := hj.below
  have hbp : bp < s1.brk := by
    unfold headerSize at hbelow
    omega
  have hpbrk := hplt.trans hbp
  unfold joinLower
  rw [bind_apply, hb1.header_eq hpbrk, ok_bind, hj.hdr_of_ne hplt.ne]
  by_cases hjoin : lastOf s.base (pre.map Block.addr) +
      headerSize * (s.hdr (lastOf s.base (pre.map Block.addr))).size = bp
  · rw [if_pos hjoin, bind_apply, hb1.header_eq hbp, ok_bind, hb1.setBoth_eq hpbrk, hj.size]
    rcases List.eq_nil_or_concat pre with rfl | ⟨pre0, k, rfl⟩
    · -- The static header is not adjacent to a block: it has no size.
      change s.base + headerSize * (s.hdr s.base).size = bp at hjoin
      change s.base < bp at hplt
      rw [h.baseSize] at hjoin
      omega
    · rw [List.concat_eq_append] at *
      rw [map_append, List.map_singleton, lastOf_append] at hjoin ⊢
      change k.addr + headerSize * (s.hdr k.addr).size = bp at hjoin
      rw [h.size k (by simp)] at hjoin
      have hnowrap : ((s.hdr (lastOf k.addr [])).size + n') % 2 ^ 32 = k.size + n' := by
        change ((s.hdr k.addr).size + n') % 2 ^ 32 = k.size + n'
        rw [h.size k (by simp)]
        have hlimit := hb.brk_le.trans hb.limit_le
        have hkabove := h.above k (by simp)
        unfold headerSize at *
        omega
      rw [hnowrap]
      refine ⟨_, _, rfl, hj.merged h hbt hjoin, ?_⟩
      rw [map_append]
      exact mem_cons_of_mem _ (mem_append_right _ mem_cons_self)
  · rw [if_neg hjoin, setPtr, hb1.setHeader_eq hpbrk, hj.hdr_of_ne hplt.ne]
    refine ⟨_, _, rfl, hj.linked h hbt rfl hjoin, ?_⟩
    rw [map_append, ← cons_append]
    exact mem_append_left _ hlow

end Lower

/-- Blocks in order are cut at a range that none of them touches. -/
theorem exists_cut {stop : ℕ} (hsorted : fs.Pairwise fun b c => b.stop < c.addr)
    (hapart : ∀ b ∈ fs, b.stop ≤ bp ∨ stop ≤ b.addr) :
    ∃ pre post, fs = pre ++ post ∧ (∀ b ∈ pre, b.stop ≤ bp) ∧ ∀ b ∈ post, stop ≤ b.addr := by
  induction fs with
  | nil => exact ⟨[], [], rfl, List.forall_mem_nil _, List.forall_mem_nil _⟩
  | cons b fs ih =>
    obtain ⟨hfirst, hsorted⟩ := pairwise_cons.mp hsorted
    rcases hapart b mem_cons_self with hb | hb
    · obtain ⟨pre, post, rfl, hpre, hpost⟩ :=
        ih hsorted fun c hmem => hapart c (mem_cons_of_mem _ hmem)
      refine ⟨b :: pre, post, rfl, fun c hmem => ?_, hpost⟩
      rcases mem_cons.mp hmem with rfl | hmem
      · exact hb
      · exact hpre c hmem
    · refine ⟨[], b :: fs, rfl, List.forall_mem_nil _, fun c hmem => ?_⟩
      rcases mem_cons.mp hmem with rfl | hmem
      · exact hb
      · have hlt := hfirst c hmem
        have hle : b.addr ≤ b.stop := Nat.le_add_right _ _
        omega

/-- `free` puts the block into the ring. -/
theorem free_runs (h : Ring s fs) (hb : Bounds s)
    (hfreep : s.freep ∈ s.base :: fs.map Block.addr) (hsize : (s.hdr bp).size = n) (hpos : 0 < n)
    (habove : s.base + headerSize ≤ bp) (hbelow : bp + headerSize * n ≤ s.brk)
    (hapart : ∀ b ∈ fs, b.stop ≤ bp ∨ bp + headerSize * n ≤ b.addr) :
    ∃ s' fs', free (bp + headerSize) s = .ok () s' ∧ Freed s s' fs fs' bp n ∧
      s'.freep ∈ s'.base :: fs'.map Block.addr := by
  obtain ⟨pre, post, rfl, hpre, hpost⟩ := exists_cut h.sorted hapart
  have hbt : Between s pre post bp n := ⟨hsize, hpos, habove, hbelow, hpre, hpost⟩
  have hplace : place bp (rounds s) s.freep s = .ok (lastOf s.base (pre.map Block.addr)) s := by
    refine place_eq h hb hfreep (hbt.addr_lt h mem_cons_self) (fun b hmem => ?_)
      fun b hmem => hbt.lt_addr hmem
    exact hbt.addr_lt h (mem_cons_of_mem _ (mem_map_of_mem hmem))
  obtain ⟨s1, post', n', hupper, hj⟩ := joinUpper_runs h hb hbt
  obtain ⟨s2, fs', hlower, hf, hmem⟩ := joinLower_runs h hb hbt hj
  have hbase : s2.base = s.base := by rw [hf.state]
  refine ⟨{ s2 with freep := lastOf s.base (pre.map Block.addr) }, fs', ?_, ?_, ?_⟩
  · unfold free
    rw [bind_apply]
    change (do
      let p ← place (bp + headerSize - headerSize) (rounds s) s.freep
      joinUpper (bp + headerSize - headerSize) p
      joinLower (bp + headerSize - headerSize) p
      Seq.modify fun s => { s with freep := p } : HeapM Unit) s = _
    rw [Nat.add_sub_cancel, bind_apply, hplace, ok_bind, bind_apply, hupper,
      ok_bind, bind_apply, hlower, ok_bind]
    rfl
  · refine ⟨⟨hf.ring.leads, hf.ring.size, hf.ring.baseSize, hf.ring.sorted, hf.ring.pos,
      hf.ring.above, hf.ring.below⟩, hf.cover, hf.addrs, hf.fits, hf.frame, ?_⟩
    rw [hf.state]
  · change lastOf s.base (pre.map Block.addr) ∈ s2.base :: _
    rw [hbase]
    exact hmem

end RiscvKernel.Heap
