import RiscvKernel.Kernel.Holding

/-!
# Making an inode

`create` allocates an inode, initialises it, writes its entries and links it. When one of the
later steps fails, it sets the link count to 0 and lets `iput` free the inode again.
-/

namespace RiscvKernel

open Threads Function
open List (mem_cons_self)

section Create

variable {P : Type} {sb : Superblock} {p : P} {s0 s : Kernel P} {G B : Facts}
  {dp e : InodeId} {i j : ℕ} {l : List ℕ} {type major minor : BitVec 16} {name : Name}

/-- The loop of `ialloc`. -/
theorem Solo.iallocFrom {fuel inum : ℕ} (h : Solo sb s0 s G) (htype : type ≠ 0)
    (hused : G.Allocated) (hfuel : inum + fuel = sb.ninodes) :
    Ends p (iallocFrom sb type fuel inum) s fun r s' => (r = none → Solo sb s0 s' G) ∧
      ∀ e, r = some e → ∃ j y, G.seen j = none ∧ G.Place e j ∧
        Solo sb s0 s' ((G.see j (some y) {sb.iblock j}).got e j) := by
  induction fuel generalizing s inum with
  | zero =>
    refine Ends.ret ⟨fun _ => h, fun e he => ?_⟩
    cases he
  | succ fuel ih =>
    have hi : inum < sb.ninodes := by omega
    refine (fsCall_ends (h.clean.iallocAt_clean hi htype hused)).bind ?_
    rintro found s1 ⟨⟨hmiss, hfound⟩, hsame⟩
    cases found with
    | false => exact ih (h.next hsame (by rw [hmiss rfl]; exact h.clean)) (by omega)
    | true =>
      obtain ⟨hfree, hclean⟩ := hfound rfl
      refine ((h.next hsame hclean).iget hi).bind ?_
      rintro e s2 ⟨hplace, h2⟩
      refine Ends.ret ⟨fun hnone => ?_, fun e' he' => ?_⟩
      · cases hnone
      · cases he'
        exact ⟨inum, _, hfree, hplace, h2⟩

/-- `create` works on directory `dp` and on the new inode `j` at `e`. -/
structure Making (sb : Superblock) (s0 : Kernel P) (B : Facts) (dp e : InodeId) (j : ℕ)
    (l : List ℕ) (s : Kernel P) (G : Facts) : Prop extends Holding sb s0 B [e, dp] l s G where
  /-- Nothing else has changed. -/
  seen : ∃ y, G.seen = update B.seen j (some y)
  /-- The inode was free. -/
  free : B.seen j = none
  /-- Its number. -/
  new : G.inum e = j
  /-- Nobody else uses it. -/
  unused : G.ref e = 1
  /-- Its record has been logged. -/
  record : sb.iblock j ∈ l

/-- The inode has been allocated and read. -/
theorem Making.start {s' : Kernel P} {y : Seen} (h : Holding sb s0 B [dp] [] s G)
    (hseen : G.seen = B.seen) (hfree : G.seen j = none) (hplace : G.Place e j)
    (h' : Solo sb s0 s' (((G.see j (some y) {sb.iblock j}).got e j).load e)) :
    Making sb s0 B dp e j [sb.iblock j] s'
      (((G.see j (some y) {sb.iblock j}).got e j).load e) where
  toHolding := (h.mono (List.nil_subset _)).made hplace (by simp) h'
  seen := by
    refine ⟨y, ?_⟩
    rw [← hseen]
    rfl
  free := by rw [← hseen, hfree]
  new := Facts.got_inum_self (G := G)
  unused := by
    have hunused : G.ref e = 0 := by
      rcases hplace with ⟨hpos, hinum⟩ | ⟨hzero, -⟩
      · have hsome := h.allocated e hpos
        rw [hinum, hfree] at hsome
        cases hsome
      · exact hzero
    refine (Facts.got_ref_self (G := G) (i := j)).trans ?_
    rw [hunused]
    rfl
  record := mem_cons_self

/-- The new inode has changed. -/
theorem Making.see {s' : Kernel P} {G' : Facts} {y : Seen} {l' : List ℕ}
    (h : Making sb s0 B dp e j l s G) (hl : l ⊆ l') (h' : Holding sb s0 B [e, dp] l' s' G')
    (hinum : G'.inum = G.inum) (hy : G'.seen = update G.seen (G.inum e) (some y)) :
    Making sb s0 B dp e j l' s' G' where
  toHolding := h'
  seen := by
    obtain ⟨z, hz⟩ := h.seen
    refine ⟨y, ?_⟩
    rw [hy, h.new, hz, update_idem]
  free := h.free
  new := by rw [hinum, h.new]
  unused := by rw [h'.ref, ← h.ref, h.unused]
  record := hl h.record

/-- What `create` leaves behind: an inode in hand, or what was there. -/
def Created (sb : Superblock) (s0 : Kernel P) (B : Facts) (r : Option InodeId) (s : Kernel P) :
    Prop :=
  ∃ G l, l.length ≤ 8 ∧ Holding sb s0 B r.toList l s G ∧ (r = none → G.seen = B.seen)

namespace Making

theorem mono {l' : List ℕ} (h : Making sb s0 B dp e j l s G) (hl : l ⊆ l') :
    Making sb s0 B dp e j l' s G :=
  { h with toHolding := h.toHolding.mono hl, record := hl h.record }

variable [DecidableEq P]

/-- `create` fails: the new inode is freed again. -/
theorem fail (h : Making sb s0 B dp e j l s G) (hl : l.length ≤ 8)
    (hdir : sb.iblock (G.inum dp) ∈ l) : Ends p (createFail sb dp e) s (Created sb s0 B) := by
  obtain ⟨y, hy⟩ := h.seen
  have hlog : sb.iblock (G.inum e) ∈ l := by
    rw [h.new]
    exact h.record
  have hx : G.seen (G.inum e) = some y := by rw [h.new, hy, update_self]
  refine (h.setNlink mem_cons_self hx hlog).bind fun u s1 h1 => ?_
  refine Ends.bind (h1.iunlock.bind fun u s2 h2 => h2.iput (h1.pos mem_cons_self)) ?_
  rintro u s3 (⟨-, hkeep⟩ | ⟨-, h3⟩)
  · exact absurd rfl (hkeep h.unused (h1.loaded e mem_cons_self) _
      (update_self (G.inum e) _ G.seen))
  have hback : update (update G.seen (G.inum e)
      (some { y with nlink := 0 })) (G.inum e) none = B.seen := by
    rw [update_idem, h.new, hy, update_idem, ← h.free, update_eq_self]
  refine ((h1.freed h.unused hlog h3).unlockPut hdir).bind ?_
  rintro u s4 ⟨G', h4, -, hseen⟩
  exact Ends.ret ⟨G', l, hl, h4, fun _ =>
    (hseen (.inr (congrFun hback _))).trans hback⟩

end Making

variable [DecidableEq P]

/-- `create` gives back the directory. -/
theorem Holding.createPut (h : Holding sb s0 B [e, dp] l s G) (hl : l.length ≤ 8)
    (hdir : sb.iblock (G.inum dp) ∈ l) :
    Ends p (do
      iunlockput sb dp
      return some e) s (Created sb s0 B) := by
  refine (h.swap.unlockPut hdir).bind ?_
  rintro u s1 ⟨G', h1, -⟩
  exact Ends.ret ⟨G', l, hl, h1, nofun⟩

namespace Making

/-- The new inode is linked, or freed again. -/
theorem link (h : Making sb s0 B dp e j l s G) (hl : l.length ≤ 5) :
    Ends p (createLink sb dp e name type j) s (Created sb s0 B) := by
  have hsub : l ⊆ sb.iblock (G.inum dp) :: l := List.subset_cons_self _ _
  have hj : j < sb.ninodes := by
    rw [← h.new]
    exact (h.clean.inum e (h.pos mem_cons_self)).2
  refine ((h.mono hsub).dirlink (e := dp) (by simp) mem_cons_self hj).bind ?_
  rintro r s1 ⟨D, G1, hD, h1, hinum, -, hfail⟩
  have hlength : (D ++ sb.iblock (G.inum dp) :: l).length ≤ 8 := by grind
  have hdir : sb.iblock (G1.inum dp) ∈ D ++ sb.iblock (G.inum dp) :: l := by simp [hinum]
  split
  · rename_i hneg
    have hm : Making sb s0 B dp e j (D ++ sb.iblock (G.inum dp) :: l) s1 G1 := by
      obtain ⟨y, hy⟩ := h.seen
      refine h.see (fun c hc => by simp [hc]) h1 hinum (y := y) ?_
      rw [hfail hneg, hy, h.new, update_idem]
    exact hm.fail hlength hdir
  split
  · obtain ⟨x, hx⟩ := h1.exists_seen (e := dp) (by simp)
    exact (h1.setNlink (by simp) hx hdir).bind fun u s2 h2 => h2.createPut hlength hdir
  · exact h1.createPut hlength hdir

omit [DecidableEq P] in
/-- An entry of the new directory. -/
theorem entry {inum : ℕ} (h : Making sb s0 B dp e j l s G) (hinum : inum < sb.ninodes) :
    Ends p (dirlink sb e name inum) s fun _ s' => ∃ D G', D.length ≤ 2 ∧
      Making sb s0 B dp e j (D ++ l) s' G' := by
  have hlog : sb.iblock (G.inum e) ∈ l := by
    rw [h.new]
    exact h.record
  refine (h.dirlink mem_cons_self hlog hinum).mono ?_
  rintro r s' ⟨D, G', hD, h', hinum, ⟨y, hy⟩, -⟩
  exact ⟨D, G', hD, h.see (List.subset_append_right D l) h' hinum hy⟩

/-- The entries of a new directory. -/
theorem entries (h : Making sb s0 B dp e j l s G) (hl : l.length ≤ 1) :
    Ends p (createEntries sb dp e name type j (G.inum dp)) s (Created sb s0 B) := by
  have hinum : ∀ x ∈ [e, dp], G.inum x < sb.ninodes := fun x hx => (h.clean.inum x (h.pos hx)).2
  have hj := hinum e (by simp)
  rw [h.new] at hj
  unfold createEntries
  split
  · refine (h.entry hj).bind ?_
    rintro r s1 ⟨D, G1, hD, h1⟩
    split
    · exact (h1.mono (List.subset_cons_self _ _)).fail (by grind) mem_cons_self
    · refine (h1.entry (hinum dp (by simp))).bind ?_
      rintro r s2 ⟨D', G2, hD', h2⟩
      split
      · exact (h2.mono (List.subset_cons_self _ _)).fail (by grind) mem_cons_self
      · exact h2.link (by grind)
  · exact h.link (by omega)

end Making

/-- The part of `create` that makes a new inode. -/
theorem Holding.createNew (h : Holding sb s0 B [dp] [] s G) (hseen : G.seen = B.seen)
    (htype : type ≠ 0) : Ends p (createNew sb dp name type major minor) s (Created sb s0 B) := by
  unfold RiscvKernel.createNew ialloc
  have hroot := sb.root_lt
  unfold rootino at hroot
  refine (h.iallocFrom htype h.allocated (by omega)).bind ?_
  rintro r s1 ⟨hnone, hsome⟩
  cases r with
  | none =>
    refine (((h.step (hnone rfl)).mono (List.nil_subset [_])).unlockPut
      mem_cons_self).bind ?_
    rintro u s2 ⟨G', h2, -, hkeep⟩
    exact Ends.ret ⟨G', _, by simp, h2, fun _ =>
      (hkeep (.inr (congrFun hseen _))).trans hseen⟩
  | some e =>
    obtain ⟨j, y, hfree, hplace, h1⟩ := hsome e rfl
    refine (h1.ilock hplace.got_pos).bind ?_
    rintro d s2 ⟨h2, -⟩
    have hm := Making.start h hseen hfree hplace h2
    obtain ⟨x, hx⟩ := hm.exists_seen mem_cons_self
    refine (fsCall_ends (hm.clean.initInode_after (hm.pos mem_cons_self)
      (hm.loaded e mem_cons_self) hx)).bind ?_
    rintro u s3 ⟨hclean, hsame⟩
    have hm3 := hm.see (List.Subset.refl _) (hm.toHolding.see mem_cons_self
      (by rintro b rfl; simp [hm.new]) (hm.next hsame hclean)) rfl rfl
    refine (hm3.inumOf (hm3.pos mem_cons_self)).bind ?_
    rintro inum s4 ⟨rfl, h4⟩
    refine (h4.inumOf (hm3.pos (e := dp) (by simp))).bind ?_
    rintro dinum s5 ⟨rfl, h5⟩
    rw [hm3.new]
    exact Making.entries { hm3 with toSolo := h5 } le_rfl

/-- `create`. -/
theorem AtRest.create {path : List UInt8} (h0 : AtRest sb s0 B) (h : Solo sb s0 s B)
    (htype : type ≠ 0) : Ends p (create sb path type major minor) s (Created sb s0 B) := by
  have hnothing : ∀ t : Kernel P, Solo sb s0 t B → Created sb s0 B none t := fun t ht =>
    ⟨B, [], Nat.zero_le _, h0.start ht, fun _ => rfl⟩
  refine (h.namex h0.noOrphans (h0.cwd p)).bind ?_
  intro r s1 h1
  cases r with
  | none => exact Ends.ret (hnothing s1 h1)
  | some found =>
    obtain ⟨i, -, hplace, h1⟩ := h1
    refine ((h0.start h).lock hplace h1).bind ?_
    rintro d s2 ⟨h2, -⟩
    obtain ⟨x, hx⟩ := h2.exists_seen mem_cons_self
    refine (h2.dirlookup (h2.pos mem_cons_self) (Set.mem_insert _ _) hx).bind ?_
    rintro r s3 ⟨h3, -⟩
    cases r with
    | none => exact (h2.step h3).createNew rfl htype
    | some next =>
      obtain ⟨k, -, hplace', h3⟩ := h3
      have hplaceₙ := hplace.of_got hplace'
      refine (h3.advance h0.noOrphans hplace hplace').bind fun u s4 h4 => ?_
      refine ((h0.start h).lock hplaceₙ h4).bind ?_
      rintro d' s5 ⟨h5, -⟩
      split
      · exact Ends.ret ⟨_, [], Nat.zero_le _, h5, nofun⟩
      · exact (h5.drop h0.noOrphans hplaceₙ).bind fun u s6 h6 => Ends.ret (hnothing s6 h6)

end Create

end RiscvKernel
