import RiscvKernel.Kernel.Lookup

/-!
# References in hand

A system call takes references to inodes and gives them back. `Holding` compares what is known
in the middle of a call with what was known when it started: the reference counts differ by the
references in hand, and the blocks that have been logged are listed.
-/

namespace RiscvKernel

open Threads Function

section Holding

variable {P : Type}

/-- No call is under way. -/
structure AtRest (sb : Superblock) (s : Kernel P) (B : Facts) : Prop where
  /-- The file system. -/
  clean : Clean sb s.fs B
  /-- Allocated inodes without links are in use. -/
  noOrphans : B.NoOrphans
  /-- Inodes in use are allocated. -/
  allocated : B.Allocated
  /-- Current directories are in use. -/
  cwd : ∀ p e, s.cwd p = some e → 0 < B.ref e

/-- A call that started in `s0` runs alone and has come to `s`. It holds references to the inodes
of `held`, which it has read. -/
structure Holding (sb : Superblock) (s0 : Kernel P) (B : Facts) (held : List InodeId)
    (l : List ℕ) (s : Kernel P) (G : Facts) : Prop extends Solo sb s0 s G where
  /-- What was known at the start. -/
  base : AtRest sb s0 B
  /-- Allocated inodes without links are in use. -/
  noOrphans : G.NoOrphans
  /-- Inodes in use are allocated. -/
  allocated : G.Allocated
  /-- The references in hand come on top of the others. -/
  ref : ∀ x, G.ref x = B.ref x + held.count x
  /-- The inodes that were in use are where they were. -/
  inum : ∀ x, 0 < B.ref x → G.inum x = B.inum x
  /-- Those in hand have been read. -/
  loaded : ∀ x ∈ held, x ∈ G.loaded
  /-- The blocks outside the free map that have been logged. -/
  log : ∀ b ∈ G.log, b ∈ B.log ∨ b ∈ l

/-- The start of a call. -/
theorem AtRest.start {sb : Superblock} {s0 s : Kernel P} {B : Facts} (h : AtRest sb s0 B)
    (h' : Solo sb s0 s B) : Holding sb s0 B [] [] s B where
  toSolo := h'
  base := h
  noOrphans := h.noOrphans
  allocated := h.allocated
  ref := fun _ => (add_zero _).symm
  inum := fun _ _ => rfl
  loaded := nofun
  log := fun _ hb => .inl hb

namespace Holding

variable {sb : Superblock} {p : P} {s0 s s' : Kernel P} {B G : Facts} {held : List InodeId}
  {l l' : List ℕ} {e n : InodeId} {i : ℕ} {x y : Seen} {M : Set ℕ}

section Held

variable (h : Holding sb s0 B held l s G)

include h

/-- A step that changes nothing that is known. -/
theorem step (h' : Solo sb s0 s' G) :
    Holding sb s0 B held l s' G := { h with toSolo := h' }

theorem le_ref (x : InodeId) : B.ref x ≤ G.ref x := by
  rw [h.ref]
  omega

theorem pos (he : e ∈ held) : 0 < G.ref e := by
  have hcount := List.count_pos_iff.mpr he
  have hold := h.base.clean.nonneg e
  rw [h.ref]
  omega

/-- Inodes in hand are allocated. -/
theorem exists_seen (he : e ∈ held) :
    ∃ x, G.seen (G.inum e) = some x :=
  Option.isSome_iff_exists.mp (h.allocated e (h.pos he))

theorem cwd_pos (he : s0.cwd p = some e) : 0 < G.ref e :=
  (h.base.cwd p e he).trans_le (h.le_ref e)

theorem mono (hl : l ⊆ l') : Holding sb s0 B held l' s G :=
  { h with log := fun b hb => (h.log b hb).imp_right fun hmem => hl hmem }

end Held

/-- The order of the inodes does not matter. -/
theorem swap (h : Holding sb s0 B (e :: n :: held) l s G) :
    Holding sb s0 B (n :: e :: held) l s G := by
  have hperm := List.Perm.swap n e held
  refine { h with ref := fun x => ?_, loaded := fun x hx => h.loaded x (hperm.mem_iff.mpr hx) }
  rw [h.ref, hperm.count_eq]

/-- Every reference has been given back. -/
theorem done (h : Holding sb s0 B [] l s G) : AtRest sb s G := by
  refine ⟨h.clean, h.noOrphans, h.allocated, fun p e he => ?_⟩
  rw [h.cwd] at he
  exact h.cwd_pos he

/-- One more reference in hand, to an inode that may have been made for it. -/
theorem made (h : Holding sb s0 B held l s G) (hplace : G.Place e i) (hM : ∀ b ∈ M, b ∈ l)
    (h' : Solo sb s0 s' (((G.see i (some y) M).got e i).load e)) :
    Holding sb s0 B (e :: held) l s' (((G.see i (some y) M).got e i).load e) where
  toSolo := h'
  base := h.base
  noOrphans := by
    intro k x hx hzero
    by_cases hk : k = i
    · exact ⟨e, hplace.got_pos, Facts.got_inum_self.trans hk.symm⟩
    · have hold : G.seen k = some x := by rwa [← update_of_ne hk (some y) G.seen]
      obtain ⟨n, hn, hnk⟩ := h.noOrphans k x hold hzero
      obtain ⟨hpos, hinum⟩ := hplace.got_inum hn
      exact ⟨n, hpos, hinum.trans hnk⟩
  allocated := by
    intro x hx
    change (update G.seen i (some y) ((G.got e i).inum x)).isSome
    by_cases hi : (G.got e i).inum x = i
    · rw [hi, update_self]
      rfl
    · have hxe : x ≠ e := by
        rintro rfl
        exact hi Facts.got_inum_self
      change 0 < (G.got e i).ref x at hx
      rw [Facts.got_ref_ne hxe] at hx
      rw [update_of_ne hi, Facts.got_inum_ne hxe]
      exact h.allocated x hx
  ref := by
    intro x
    change (G.got e i).ref x = _
    by_cases hx : x = e
    · rw [hx, Facts.got_ref_self, h.ref, List.count_cons_self]
      push_cast
      omega
    · rw [Facts.got_ref_ne hx, h.ref, List.count_cons_of_ne (Ne.symm hx)]
  inum := by
    intro x hx
    have hpos := hx.trans_le (h.le_ref x)
    exact (hplace.got_inum hpos).2.trans (h.inum x hx)
  loaded := by
    intro x hx
    rcases List.mem_cons.mp hx with rfl | hx
    · exact Set.mem_insert _ _
    · exact .inr ⟨h.loaded x hx, h.pos hx⟩
  log := by
    rintro b (hb | hb)
    · exact h.log b hb
    · exact .inr (hM b hb)

/-- An inode in hand has changed. -/
theorem see (h : Holding sb s0 B held l s G) (he : e ∈ held) (hM : ∀ b ∈ M, b ∈ l)
    (h' : Solo sb s0 s' (G.see (G.inum e) (some y) M)) :
    Holding sb s0 B held l s' (G.see (G.inum e) (some y) M) where
  toSolo := h'
  base := h.base
  noOrphans := h.noOrphans.see (h.pos he)
  allocated := by
    intro x hx
    change (update G.seen (G.inum e) (some y) (G.inum x)).isSome
    by_cases heq : G.inum x = G.inum e
    · rw [heq, update_self]
      rfl
    · rw [update_of_ne heq]
      exact h.allocated x hx
  ref := h.ref
  inum := h.inum
  loaded := h.loaded
  log := by
    rintro b (hb | hb)
    · exact h.log b hb
    · exact .inr (hM b hb)

section Put

variable (h : Holding sb s0 B (e :: held) l s G)

include h

/-- The references after `iput`. -/
theorem put_ref (x : InodeId) :
    (G.put e).ref x = B.ref x + held.count x := by
  by_cases hx : x = e
  · rw [hx, Facts.put_ref_self, h.ref, List.count_cons_self]
    push_cast
    omega
  · rw [Facts.put_ref_ne hx, h.ref, List.count_cons_of_ne (Ne.symm hx)]

/-- `iput` gives no reference. -/
theorem pos_of_put {x : InodeId}
    (hx : 0 < (G.put e).ref x) : 0 < G.ref x := by
  by_cases hxe : x = e
  · rw [hxe]
    exact h.pos List.mem_cons_self
  · rwa [Facts.put_ref_ne hxe] at hx

/-- A reference has been given back, and the inode stays. -/
theorem kept (h' : Solo sb s0 s' (G.put e))
    (hkeep : G.ref e = 1 → ∀ x, G.seen (G.inum e) = some x → x.nlink ≠ 0) :
    Holding sb s0 B held l s' (G.put e) where
  toSolo := h'
  base := h.base
  noOrphans := by
    intro i x hx hzero
    obtain ⟨n, hn, hni⟩ := h.noOrphans i x hx hzero
    refine ⟨n, ?_, hni⟩
    by_cases hne : n = e
    · have hmany : G.ref e ≠ 1 := by
        intro hone
        rw [← hni, hne] at hx
        exact hkeep hone x hx hzero
      rw [hne] at hn ⊢
      rw [Facts.put_ref_self]
      omega
    · rwa [Facts.put_ref_ne hne]
  allocated := fun x hx => h.allocated x (h.pos_of_put hx)
  ref := h.put_ref
  inum := h.inum
  loaded := fun x hx => h.loaded x (List.mem_cons_of_mem _ hx)
  log := h.log

/-- The last reference has been given back, and the inode is freed. -/
theorem freed (hone : G.ref e = 1)
    (hlog : sb.iblock (G.inum e) ∈ l)
    (h' : Solo sb s0 s' (((G.see (G.inum e) none {sb.iblock (G.inum e)}).unload e).put e)) :
    Holding sb s0 B held l s'
      (((G.see (G.inum e) none {sb.iblock (G.inum e)}).unload e).put e) := by
  have hpos := h.pos (List.mem_cons_self (a := e) (l := held))
  -- an inode still in use is another one
  have hother : ∀ x, 0 < (G.put e).ref x → x ≠ e ∧ G.inum x ≠ G.inum e := by
    intro x hx
    have hne : x ≠ e := by
      rintro rfl
      rw [Facts.put_ref_self] at hx
      omega
    exact ⟨hne, fun heq => hne (h.clean.unique x e (h.pos_of_put hx) hpos heq)⟩
  have hseen : ∀ i, i ≠ G.inum e → update G.seen (G.inum e) none i = G.seen i :=
    fun i hi => update_of_ne hi _ _
  constructor
  · exact h'
  · exact h.base
  · intro i x hx hzero
    have hi : i ≠ G.inum e := by
      rintro rfl
      change update G.seen (G.inum e) none (G.inum e) = some x at hx
      rw [update_self] at hx
      cases hx
    obtain ⟨n, hn, hni⟩ := h.noOrphans i x ((hseen i hi).symm.trans hx) hzero
    have hne : n ≠ e := by
      rintro rfl
      exact hi hni.symm
    refine ⟨n, ?_, hni⟩
    rw [Facts.put_ref_ne hne]
    exact hn
  · intro x hx
    change (update G.seen (G.inum e) none (G.inum x)).isSome
    rw [hseen _ (hother x hx).2]
    exact h.allocated x (h.pos_of_put hx)
  · exact h.put_ref
  · exact h.inum
  · intro x hx
    have hxr : 0 < (G.put e).ref x := by
      have hcount := List.count_pos_iff.mpr hx
      have hold := h.base.clean.nonneg x
      rw [h.put_ref]
      omega
    exact ⟨h.loaded x (List.mem_cons_of_mem _ hx), (hother x hxr).1⟩
  · rintro b (hb | rfl)
    · exact h.log b hb
    · exact .inr hlog

/-- An inode that looks as at the start is not freed. -/
theorem not_freed (hone : G.ref e = 1)
    (hsame : e ∈ held ∨ G.seen (G.inum e) = B.seen (G.inum e))
    (hx : G.seen (G.inum e) = some x) : x.nlink ≠ 0 := by
  intro hzero
  have href := h.ref e
  rw [hone, List.count_cons_self] at href
  have hold := h.base.clean.nonneg e
  rcases hsame with he | hseen
  · have hcount := List.count_pos_iff.mpr he
    omega
  · obtain ⟨n, hn, hni⟩ := h.base.noOrphans _ x (hseen.symm.trans hx) hzero
    have hne := h.clean.unique n e (hn.trans_le (h.le_ref n)) (by omega)
      ((h.inum n hn).trans hni)
    rw [hne] at hn
    omega

end Put

/-- `ilock` of an inode that was just found. -/
theorem lock (h : Holding sb s0 B held l s G) (hplace : G.Place e i)
    (h' : Solo sb s0 s' (G.got e i)) :
    Ends p (ilock sb e) s' fun d s'' =>
      Holding sb s0 B (e :: held) l s'' ((G.got e i).load e) ∧
        ∃ bytes, G.seen i = some (Seen.of d bytes) := by
  refine (h'.ilock hplace.got_pos).mono ?_
  rintro d s'' ⟨h'', bytes, hx⟩
  rw [Facts.got_inum_self] at hx
  have hsee : G.see i (some (Seen.of d bytes)) ∅ = G := by
    unfold Facts.see
    rw [← hx, Set.union_empty]
    exact congrArg (fun seen => { G with seen }) (update_eq_self i G.seen)
  have hmade : Solo sb s0 s'' _ → _ := h.made (y := Seen.of d bytes) (M := ∅) hplace nofun
  rw [hsee] at hmade
  exact ⟨hmade h'', bytes, hx⟩

/-- `iput`: an inode that looks as at the start stays. -/
theorem put (h : Holding sb s0 B (e :: held) l s G) (hlog : sb.iblock (G.inum e) ∈ l) :
    Ends p (iput sb e) s fun _ s' => ∃ G', Holding sb s0 B held l s' G' ∧ G'.inum = G.inum ∧
      (e ∈ held ∨ G.seen (G.inum e) = B.seen (G.inum e) → G'.seen = G.seen) := by
  have he : e ∈ e :: held := List.mem_cons_self
  refine (h.iput (h.pos he)).mono ?_
  rintro u s' (⟨h', hkeep⟩ | ⟨⟨hone, x, hx, hzero⟩, h'⟩)
  · exact ⟨_, h.kept h' fun hone => hkeep hone (h.loaded e he), rfl, fun _ => rfl⟩
  · exact ⟨_, h.freed hone hlog h', rfl, fun hsame => absurd hzero (h.not_freed hone hsame hx)⟩

/-- `iunlockput`. -/
theorem unlockPut [DecidableEq P] (h : Holding sb s0 B (e :: held) l s G)
    (hlog : sb.iblock (G.inum e) ∈ l) :
    Ends p (iunlockput sb e) s fun _ s' => ∃ G', Holding sb s0 B held l s' G' ∧
      G'.inum = G.inum ∧
      (e ∈ held ∨ G.seen (G.inum e) = B.seen (G.inum e) → G'.seen = G.seen) :=
  h.iunlock.bind fun _ _ h' => (h.step h').put hlog

/-- A link count is changed. -/
theorem setNlink {f : BitVec 16 → BitVec 16} (h : Holding sb s0 B held l s G) (he : e ∈ held)
    (hx : G.seen (G.inum e) = some x) (hlog : sb.iblock (G.inum e) ∈ l) :
    Ends p (fsCall (setNlink sb e f)) s fun _ s' => Holding sb s0 B held l s'
      (G.see (G.inum e) (some { x with nlink := f x.nlink }) {sb.iblock (G.inum e)}) := by
  refine (fsCall_ends (h.clean.setNlink_after (h.pos he) (h.loaded e he) hx)).mono ?_
  rintro u s' ⟨hclean, hsame⟩
  refine h.see he ?_ (h.next hsame hclean)
  rintro b rfl
  exact hlog

/-- `dirlink`: if it fails, everything looks as before. -/
theorem dirlink {name : Name} {inum : ℕ} (h : Holding sb s0 B held l s G) (he : e ∈ held)
    (hlog : sb.iblock (G.inum e) ∈ l) (hinum : inum < sb.ninodes) :
    Ends p (dirlink sb e name inum) s fun r s' => ∃ D G', D.length ≤ 2 ∧
      Holding sb s0 B held (D ++ l) s' G' ∧ G'.inum = G.inum ∧
        (∃ y, G'.seen = update G.seen (G.inum e) (some y)) ∧
        (r < 0 → G'.seen = G.seen) := by
  obtain ⟨x, hx⟩ := h.exists_seen he
  have hsame : G.seen = update G.seen (G.inum e) (some x) := by
    rw [← hx, update_eq_self]
  refine (h.dirlookup (h.pos he) (h.loaded e he) hx).bind ?_
  rintro r s1 ⟨h1, -⟩
  cases r with
  | some found =>
    -- The name is there: the reference to its inode is given back.
    obtain ⟨j, -, hplace, h1⟩ := h1
    have hself := Facts.got_ref_self (G := G) (e := found.1) (i := j)
    refine (h1.iput_keep hplace.got_pos
      (h.noOrphans.keep hplace rfl Facts.got_inum_self (by omega))).bind fun u s2 h2 => ?_
    exact Ends.ret ⟨[], G, Nat.zero_le _, h.step (h2.implies hplace.put_got), rfl, ⟨x, hsame⟩,
      fun _ => rfl⟩
  | none =>
    refine (fsCall_ends (h1.clean.dirlinkStore_clean (h.pos he) (h.loaded e he) hinum)).bind ?_
    rintro r s2 ⟨⟨D, hD, hfail, hstored⟩, hsame2⟩
    have hM : ∀ c ∈ ({b | b ∈ sb.iblock (G.inum e) :: D} : Set ℕ), c ∈ D ++ l := by
      intro c hc
      rcases List.mem_cons.mp hc with rfl | hc <;> simp [*]
    have h' := h.mono (List.subset_append_right D l)
    cases r with
    | none =>
      refine Ends.ret ⟨D, _, hD, { h' with toSolo := h1.next hsame2 (hfail rfl), log := ?_ },
        rfl, ⟨x, hsame⟩, fun _ => rfl⟩
      rintro c (hc | hc)
      · exact h'.log c hc
      · exact .inr (hM c hc)
    | some off =>
      obtain ⟨y, hclean⟩ := hstored rfl
      refine Ends.ret ⟨D, _, hD, h'.see he hM (h1.next hsame2 hclean), rfl, ⟨y, rfl⟩, ?_⟩
      intro hneg
      simp at hneg

end Holding

end Holding

end RiscvKernel
