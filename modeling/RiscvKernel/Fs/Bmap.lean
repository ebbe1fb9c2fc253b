import RiscvKernel.Fs.Owned

/-!
# Mapping file blocks

`bmap` finds the block of a file or allocates one. An allocated block is zeroed and a
missing block reads as zeros, so the contents of every file stay as they are; only the
slots of the inode in hand change.
-/

namespace RiscvKernel

open Threads Function
open Threads.Seq (Runs)

/-- The slot of block `bn` of a file. -/
def bnSlot (bn : ℕ) : ℕ := if bn < ndirect then bn else bn + 1

/-- No block of the file is the indirect block. -/
theorem bnSlot_ne_ndirect (bn : ℕ) : bnSlot bn ≠ ndirect := by
  unfold bnSlot
  split <;> omega

/-- Blocks of the file have slots of their own. -/
theorem bnSlot_inj {m n : ℕ} (h : bnSlot m = bnSlot n) : m = n := by
  unfold bnSlot at h
  split at h <;> split at h <;> omega

/-- The contents of a slot of inode `i`; a missing block reads as zeros. -/
def dataAt (sb : Superblock) (V : ℕ → Dinode) (blocks : ℕ → Block) (i k : ℕ) : Block :=
  if slotOf sb V blocks i k = 0 then Block.zero else blocks (slotOf sb V blocks i k)

theorem dataAt_of_ne {sb : Superblock} {V : ℕ → Dinode} {blocks : ℕ → Block} {i k : ℕ}
    (hne : slotOf sb V blocks i k ≠ 0) :
    dataAt sb V blocks i k = blocks (slotOf sb V blocks i k) := if_neg hne

/-- What asking for slot `k` of inode `i`, in memory at `e`, may do: the inode record
becomes `d` and the block `a` is returned. -/
structure Mapped (sb : Superblock) (V : ℕ → Dinode) (i : ℕ) (e : InodeId) (k : ℕ) (s : Fs) (a : ℕ)
    (s' : Fs) (d : Dinode) : Prop where
  /-- Only the addresses of the inode in memory change. -/
  itable : s'.itable = update s.itable e { s.itable e with d := d }
  /-- The other fields of the record stay. -/
  fields : d = { (s.itable e).d with addrs := d.addrs }
  /-- Block ownership holds with the new record. -/
  owned : Owned sb ∅ (update V i d) s'.blocks
  /-- No buffer is left held. -/
  held : s'.held = s.held
  /-- Every change was logged. -/
  unlogged : s'.unlogged = s.unlogged
  /-- The inode blocks stay. -/
  low : ∀ b < sb.bmapstart, s'.blocks b = s.blocks b
  /-- The contents of all files stay. -/
  data : ∀ j l, l ≠ ndirect →
    dataAt sb (update V i d) s'.blocks j l = dataAt sb V s.blocks j l
  /-- The other slots stay; the indirect block may have been added. -/
  slots : ∀ j l, (l ≠ ndirect ∨ j ≠ i) → ¬ (j = i ∧ l = k) →
    slotOf sb (update V i d) s'.blocks j l = slotOf sb V s.blocks j l
  /-- The block returned is in the slot. -/
  found : slotOf sb (update V i d) s'.blocks i k = a
  /-- Refusals of `balloc` are counted. -/
  denied_le : s.denied ≤ s'.denied
  /-- No block is returned only if `balloc` has none. -/
  denied : a = 0 → s.denied < s'.denied
  /-- A block that is there is found without any change. -/
  keep : slotOf sb V s.blocks i k ≠ 0 → s' = s

/-- Inode `i` is in memory at `e`, with the records `V`. -/
structure AtFile (sb : Superblock) (V : ℕ → Dinode) (i : ℕ) (e : InodeId) (s : Fs) : Prop where
  /-- Block ownership holds. -/
  owned : Owned sb ∅ V s.blocks
  /-- The record of the inode is the one in memory. -/
  view : V i = (s.itable e).d
  /-- It exists. -/
  lt : i < sb.ninodes
  /-- It is allocated. -/
  type : (V i).type ≠ 0
  /-- No buffer is held. -/
  held : s.held = []

section Slot

variable {sb : Superblock} {V : ℕ → Dinode} {i k a : ℕ} {e : InodeId} {s : Fs} {d : Dinode}
  {blocks : ℕ → Block}

/-- A new address whose block is zero changes no other slot. -/
theorem slot_setAddr (hk : k ≤ ndirect) (ha : a < 2 ^ 32) (hfree : d.addr k = 0)
    (hzero : blocks a = Block.zero) (l : ℕ) :
    (d.setAddr k a).slot blocks l = if l = k then a else d.slot blocks l := by
  have hk13 : k < 13 := by
    unfold ndirect at hk
    omega
  have haddr := fun j => d.addr_setAddr (j := j) hk13 ha
  unfold Dinode.slot
  by_cases hl : l ≤ ndirect
  · simp only [if_pos hl, haddr]
  · have hlk : l ≠ k := by omega
    simp only [if_neg hl, haddr, if_neg hlk]
    by_cases hkn : ndirect = k
    · subst hkn
      simp [hfree, hzero]
    · rw [if_neg hkn]

/-- Only the addresses change. -/
theorem fields_setAddr (d : Dinode) (k a : ℕ) :
    d.setAddr k a = { d with addrs := (d.setAddr k a).addrs } := by
  unfold Dinode.setAddr
  split <;> rfl

/-- The block is there. -/
theorem Mapped.present (h : Owned sb ∅ V s.blocks) (hV : V i = (s.itable e).d)
    (ha : slotOf sb V s.blocks i k = a) (hne : a ≠ 0) :
    Mapped sb V i e k s a s (s.itable e).d := by
  have hself : update V i (s.itable e).d = V := by
    rw [← hV, update_eq_self]
  refine ⟨?_, rfl, ?_, rfl, rfl, fun _ _ => rfl, ?_, ?_, ?_, le_rfl, fun h0 => absurd h0 hne,
    fun _ => rfl⟩
  · rw [update_eq_self]
  · rwa [hself]
  · rw [hself]
    exact fun _ _ _ => rfl
  · rw [hself]
    exact fun _ _ _ _ => rfl
  · rwa [hself]

/-- The block is not there and cannot be allocated. -/
theorem Mapped.refused (h : Owned sb ∅ V s.blocks) (hV : V i = (s.itable e).d)
    (ha : slotOf sb V s.blocks i k = 0) :
    Mapped sb V i e k s 0 { s with denied := s.denied + 1 } (s.itable e).d := by
  have hself : update V i (s.itable e).d = V := by
    rw [← hV, update_eq_self]
  refine ⟨?_, rfl, ?_, rfl, rfl, fun _ _ => rfl, ?_, ?_, ?_, Nat.le_succ _,
    fun _ => Nat.lt_succ_self _,
    fun hne => absurd ha hne⟩
  · rw [update_eq_self]
  · rwa [hself]
  · rw [hself]
    exact fun _ _ _ => rfl
  · rw [hself]
    exact fun _ _ _ _ => rfl
  · rwa [hself]

/-- The contents of the slots after a block has been allocated for one of them. -/
theorem dataAt_attach {V' : ℕ → Dinode} {blocks' : ℕ → Block} {j l : ℕ}
    (hold : slotOf sb V blocks i k = 0) (hnew : slotOf sb V' blocks' i k = a)
    (hzero : blocks' a = Block.zero)
    (hslots : ¬ (j = i ∧ l = k) → slotOf sb V' blocks' j l = slotOf sb V blocks j l)
    (hblocks : slotOf sb V blocks j l ≠ 0 →
      blocks' (slotOf sb V blocks j l) = blocks (slotOf sb V blocks j l)) :
    dataAt sb V' blocks' j l = dataAt sb V blocks j l := by
  unfold dataAt
  by_cases hjl : j = i ∧ l = k
  · obtain ⟨rfl, rfl⟩ := hjl
    rw [hold, hnew, hzero]
    simp
  · rw [hslots hjl]
    split
    · rfl
    · rename_i hne
      exact hblocks hne

/-- `addrs[k]`, allocated if it is 0. -/
theorem addrOrAlloc_runs (hf : AtFile sb V i e s) (hk : k ≤ ndirect) :
    Runs (fun _ => False) (addrOrAlloc sb e k) s
      fun a s' => ∃ d, Mapped sb V i e k s a s' d := by
  obtain ⟨h, hV, hi, ht, hheld⟩ := hf
  have hslot : slotOf sb V s.blocks i k = (s.itable e).d.addr k := by
    rw [slotOf_alloc hi ht, hV, Dinode.slot, if_pos hk]
  unfold addrOrAlloc
  refine .gets_bind ?_
  by_cases haddr : (s.itable e).d.addr k = 0
  swap
  · rw [if_neg haddr]
    exact .pure ⟨_, Mapped.present h hV hslot haddr⟩
  rw [if_pos haddr]
  rw [haddr] at hslot
  have hused : HeldUsed sb s := by
    intro b hb
    rw [hheld] at hb
    cases hb
  have hballoc := ballocFrom_spec hused (n := (sb.size + bpb - 1) / bpb) (q := 0) (by omega)
    (by simp)
  rw [Nat.zero_mul] at hballoc
  rcases hballoc with ⟨heq, -⟩ | ⟨a, ha, hfree, -, heq⟩
  · refine .of_eq_bind heq ?_
    rw [if_pos rfl]
    exact .pure ⟨_, Mapped.refused h hV hslot⟩
  · obtain ⟨hdata, -, hunused⟩ := h.free_block ha hfree
    have hpos := nmeta_pos sb
    have ha32 : a < 2 ^ 32 := by
      have := sb.size_lt
      omega
    refine .of_eq_bind heq ?_
    rw [if_neg (by omega)]
    set d := (s.itable e).d.setAddr k a with hd
    have hzero : (s.take sb a).blocks a = Block.zero := take_blocks_self
    have hslotd := slot_setAddr hk ha32 haddr hzero
    have htype : d.type ≠ 0 := by
      rw [hd, Dinode.type_setAddr, ← hV]
      exact ht
    have hnew : slotOf sb (update V i d) (s.take sb a).blocks i k = a := by
      rw [slotOf_alloc hi (by rwa [update_self]), update_self, hd, hslotd,
        if_pos rfl]
    have htake := h.slotOf_take ha hfree
    have hslots : ∀ j l, ¬ (j = i ∧ l = k) →
        slotOf sb (update V i d) (s.take sb a).blocks j l = slotOf sb V s.blocks j l := by
      intro j l hjl
      by_cases hj : j = i
      · subst hj
        rw [← htake, slotOf_alloc hi (by rwa [update_self]), update_self, hd,
          hslotd, if_neg (fun hl => hjl ⟨rfl, hl⟩), slotOf_alloc hi ht, hV]
      · rw [← htake]
        exact slotOf_congr (update_of_ne hj _ _) (fun _ _ _ => rfl) l
    refine .of_eq (a := a) (t := (s.take sb a).setD e d) rfl ?_
    refine ⟨d, ?_, fields_setAddr _ _ _, ?_, rfl, rfl, ?_, ?_, fun j l _ => hslots j l, hnew,
      le_rfl, fun h0 => by omega, fun hne => absurd hslot hne⟩
    · rfl
    · rw [Fs.setD_blocks]
      have := (h.take ha hfree).attach (Set.mem_insert a ∅) ((htake i k).trans hslot) hnew
        (fun j l hjl => (hslots j l hjl).trans (htake j l).symm) (fun _ _ => rfl)
      rw [show insert a (∅ : Set ℕ) \ {a} = ∅ by simp] at this
      exact this
    · intro c hc
      have := hdata
      have : sb.bmapstart ≤ sb.nmeta := by
        unfold Superblock.nmeta
        exact Nat.le_succ_of_le (Nat.le_add_right _ _)
      exact take_blocks ha (by omega) (.inl hc)
    · intro j l _
      refine dataAt_attach hslot hnew hzero (hslots j l) fun hne => ?_
      exact take_blocks ha (hunused j l) (.inr (h.range j l hne).1)

/-- The part of `bmap` for the indirect block: entry `j`, allocated if it is 0. -/
theorem bmapIndirect_runs (hf : AtFile sb V i e s) {j : ℕ} (hj : j < nindirect)
    (hind : (V i).addr ndirect ≠ 0) :
    Runs (fun _ => False) (bmapIndirect sb ((V i).addr ndirect) j) s
      fun a s' => Mapped sb V i e (ndirect + 1 + j) s a s' (s.itable e).d := by
  obtain ⟨h, hV, hi, ht, hheld⟩ := hf
  set b := (V i).addr ndirect with hb
  set k := ndirect + 1 + j with hk
  obtain ⟨hbmeta, hbsize, hbused⟩ := h.indirect_used hi ht hind
  rw [← hb] at hbmeta hbsize hbused
  have hslot : slotOf sb V s.blocks i k = (s.blocks b).entry j := by
    have h1 : ¬ k ≤ ndirect := by omega
    have h2 : ¬ (b = 0 ∨ nslots ≤ k) := by
      unfold nslots
      omega
    rw [slotOf_alloc hi ht, Dinode.slot, if_neg h1, if_neg h2, hk, Nat.add_sub_cancel_left]
  have hself : update V i (s.itable e).d = V := by
    rw [← hV, update_eq_self]
  have hread : fsRead b s = .ok ⟨b, s.blocks b, s.blocks b, true⟩ { s with held := b :: s.held } :=
    fsRead_eq (by simp [hheld])
  unfold bmapIndirect
  refine .of_eq_bind hread ?_
  by_cases hentry : (s.blocks b).entry j = 0
  swap
  · rw [if_neg hentry]
    refine .modify_bind ?_
    rw [Fs.release_unchanged]
    exact .pure (Mapped.present h hV hslot hentry)
  rw [if_pos hentry]
  rw [hentry] at hslot
  have hused : HeldUsed sb { s with held := b :: s.held } := by
    intro c hc
    rw [hheld] at hc
    rw [List.mem_singleton.mp hc]
    exact ⟨.inr hbmeta, hbused⟩
  have hballoc := ballocFrom_spec hused (n := (sb.size + bpb - 1) / bpb) (q := 0) (by omega)
    (by simp)
  rw [Nat.zero_mul] at hballoc
  rcases hballoc with ⟨heq, -⟩ | ⟨a, ha, hfree, -, heq⟩
  · refine .of_eq_bind heq ?_
    rw [if_pos rfl]
    refine .modify_bind ?_
    have hrel : Fs.release { s with held := b :: s.held, denied := s.denied + 1 }
        ⟨b, s.blocks b, s.blocks b, true⟩ = { s with denied := s.denied + 1 } := by
      simp [Fs.release]
    rw [hrel]
    exact .pure (Mapped.refused h hV hslot)
  · replace hfree : usedBit sb s.blocks a = false := hfree
    obtain ⟨hdata, -, hunused⟩ := h.free_block ha hfree
    have hpos := nmeta_pos sb
    have ha32 : a < 2 ^ 32 := by
      have := sb.size_lt
      omega
    have hab : b ≠ a := by
      rintro rfl
      rw [hfree] at hbused
      cases hbused
    refine .of_eq_bind heq ?_
    rw [if_neg (by omega)]
    set d' := (s.blocks b).setEntry j a with hd'
    have hblocks : ∀ c, c ≠ b → update (s.take sb a).blocks b d' c =
        (s.take sb a).blocks c := fun c hc => update_of_ne hc _ _
    have htake := h.slotOf_take ha hfree
    -- No other inode has this indirect block.
    have hown : ∀ i' < sb.ninodes, (V i').type ≠ 0 → (V i').addr ndirect = b → i' = i := by
      intro i' hi' ht' hb'
      refine (h.inj i' ndirect i ndirect ?_ ?_).1
      · rw [slotOf_indirect hi' ht', hb']
        exact hind
      · rw [slotOf_indirect hi' ht', slotOf_indirect hi ht, hb']
    have hentryd := fun l => (s.blocks b).entry_setEntry (k := l) hj ha32
    have hslots : ∀ i' l, ¬ (i' = i ∧ l = k) →
        slotOf sb V (update (s.take sb a).blocks b d') i' l = slotOf sb V s.blocks i' l := by
      intro i' l hil
      rw [← htake]
      by_cases hii : i' = i
      · subst hii
        rw [slotOf_alloc hi ht, slotOf_alloc hi ht]
        unfold Dinode.slot
        rw [← hb, update_self, take_blocks ha hab (Or.inr hbmeta)]
        split
        · rfl
        · split
          · rfl
          · rw [hd', hentryd, if_neg]
            intro hl
            exact hil ⟨rfl, by omega⟩
      · refine slotOf_congr rfl (fun hi' ht' _ => hblocks _ fun hc => hii ?_) l
        exact hown i' hi' ht' hc
    have hnew : slotOf sb V (update (s.take sb a).blocks b d') i k = a := by
      have h1 : ¬ k ≤ ndirect := by omega
      have h2 : ¬ (b = 0 ∨ nslots ≤ k) := by
        unfold nslots
        omega
      rw [slotOf_alloc hi ht, Dinode.slot, if_neg h1, ← hb, if_neg h2, update_self, hd',
        hk, Nat.add_sub_cancel_left, hentryd, if_pos rfl]
    refine .of_eq (a := a) (t := (s.take sb a).write b d') ?_ ?_
    · simp [fsLog, fsRelse, Fs.release, Bp.modify, Fs.take, Fs.write, hd']
    refine ⟨?_, rfl, ?_, rfl, rfl, ?_, ?_, ?_, ?_, le_rfl, fun h0 => by omega,
      fun hne => absurd hslot hne⟩
    · rw [update_eq_self]
      rfl
    · rw [hself]
      have := (h.take ha hfree).attach (Set.mem_insert a ∅) ((htake i k).trans hslot) hnew
        (fun j l hjl => (hslots j l hjl).trans (htake j l).symm)
        (fun c hc => usedBit_update hc (.inr hbmeta) d')
      rw [show insert a (∅ : Set ℕ) \ {a} = ∅ by simp] at this
      exact this
    · intro c hc
      have hle : sb.bmapstart ≤ sb.nmeta := Nat.le_succ_of_le (Nat.le_add_right _ _)
      refine (hblocks c (by omega)).trans ?_
      exact take_blocks ha (by omega) (.inl hc)
    · rw [hself]
      intro i' l hl
      refine dataAt_attach hslot hnew ?_ (hslots i' l) fun hne => ?_
      · exact (hblocks a hab.symm).trans take_blocks_self
      · have hcb : slotOf sb V s.blocks i' l ≠ b := by
          intro hc
          have := (h.inj i' l i ndirect hne (by rw [hc, slotOf_indirect hi ht])).2
          exact hl this
        refine (hblocks _ hcb).trans ?_
        exact take_blocks ha (hunused i' l) (.inr (h.range i' l hne).1)
    · rw [hself]
      exact fun i' l _ => hslots i' l
    · rw [hself]
      exact hnew

/-- An inode without an indirect block has no slots behind it. -/
theorem slotOf_eq_zero (hk : ndirect < k) (hzero : slotOf sb V blocks i ndirect = 0) :
    slotOf sb V blocks i k = 0 := by
  unfold slotOf at hzero ⊢
  split
  · rename_i hi
    rw [if_pos hi, Dinode.slot, if_pos le_rfl] at hzero
    rw [Dinode.slot, if_neg (by omega), if_pos (Or.inl hzero)]
  · rfl

/-- `bmap` on a block of a file of at most `MAXFILE` blocks. -/
theorem bmap_runs (hf : AtFile sb V i e s) {bn : ℕ} (hbn : bn < maxfile) :
    Runs (fun _ => False) (bmap sb e bn) s
      fun a s' => ∃ d, Mapped sb V i e (bnSlot bn) s a s' d := by
  have ⟨_, hV, hi, ht, hheld⟩ := hf
  unfold bmap
  by_cases hdir : bn < ndirect
  · rw [if_pos hdir, bnSlot, if_pos hdir]
    exact addrOrAlloc_runs hf hdir.le
  have hj : bn - ndirect < nindirect := by
    unfold maxfile at hbn
    omega
  have hk : ndirect < bnSlot bn := by
    unfold bnSlot
    rw [if_neg hdir]
    omega
  rw [if_neg hdir, if_pos hj]
  refine .bind (addrOrAlloc_runs hf le_rfl) ?_
  rintro a1 s1 ⟨d1, h1⟩
  have hslot1 : slotOf sb (update V i d1) s1.blocks i (bnSlot bn) =
      slotOf sb V s.blocks i (bnSlot bn) :=
    h1.slots i _ (.inl (by omega)) (by omega)
  -- A block that is there keeps the first part from changing anything.
  have hkeep : slotOf sb V s.blocks i (bnSlot bn) ≠ 0 → s1 = s := by
    intro hne
    refine h1.keep fun hz => hne (slotOf_eq_zero hk hz)
  by_cases ha1 : a1 = 0
  · rw [if_pos ha1]
    subst ha1
    have hzero := slotOf_eq_zero hk h1.found
    refine .pure ⟨d1, h1.itable, h1.fields, h1.owned, h1.held, h1.unlogged, h1.low, h1.data, ?_,
      hzero,
      h1.denied_le, h1.denied, hkeep⟩
    intro j l hl _
    exact h1.slots j l hl (by omega)
  · rw [if_neg ha1]
    have hd1 : (s1.itable e).d = d1 := by
      rw [h1.itable, update_self]
    have ht1 : (update V i d1 i).type ≠ 0 := by
      rw [update_self, h1.fields, ← hV]
      exact ht
    have hind : (update V i d1 i).addr ndirect = a1 := by
      rw [← slotOf_indirect hi ht1, h1.found]
    have hrun := bmapIndirect_runs (e := e) ⟨h1.owned, by rw [update_self, hd1], hi, ht1,
      h1.held.trans hheld⟩ hj (by rwa [hind])
    rw [hind, hd1, show ndirect + 1 + (bn - ndirect) = bnSlot bn by
      unfold bnSlot
      rw [if_neg hdir]
      omega] at hrun
    refine hrun.mono fun a s2 h2 => ⟨d1, ?_, h1.fields, ?_, h2.held.trans h1.held,
      h2.unlogged.trans h1.unlogged, fun b hb => (h2.low b hb).trans (h1.low b hb), ?_, ?_, ?_,
      h1.denied_le.trans h2.denied_le, ?_, ?_⟩
    · rw [h2.itable, h1.itable]
      simp
    · have := h2.owned
      rwa [update_idem] at this
    · intro j l hl
      have := h2.data j l hl
      rw [update_idem] at this
      exact this.trans (h1.data j l hl)
    · intro j l hl hjl
      have := h2.slots j l hl hjl
      rw [update_idem] at this
      exact this.trans (h1.slots j l hl (by omega))
    · have := h2.found
      rwa [update_idem] at this
    · intro ha
      exact lt_of_le_of_lt h1.denied_le (h2.denied ha)
    · intro hne
      rw [h2.keep (by rwa [hslot1]), hkeep hne]

/-- `bmap` finds a block that is there and changes nothing. -/
theorem bmap_eq (hf : AtFile sb V i e s) {bn : ℕ} (hbn : bn < maxfile)
    (hne : slotOf sb V s.blocks i (bnSlot bn) ≠ 0) :
    bmap sb e bn s = .ok (slotOf sb V s.blocks i (bnSlot bn)) s := by
  obtain ⟨a, s', heq, d, hmap⟩ := (bmap_runs hf hbn).returns
  have hs' : s' = s := hmap.keep hne
  subst hs'
  have hd : d = (s'.itable e).d := by
    have := congrFun hmap.itable e
    rw [update_self] at this
    exact congrArg Inode.d this.symm
  have hfound := hmap.found
  rw [hd, ← hf.view, update_eq_self] at hfound
  rw [heq, hfound]

end Slot

end RiscvKernel
