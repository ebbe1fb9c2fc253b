import RiscvKernel.Kernel.Sections

/-!
# Running alone

One process runs a system call while no other process does anything. `Solo` says what is
known between two of its sections. References that the process takes and gives back, and the
inodes that it reads on the way, leave no trace in it.
-/

namespace RiscvKernel

open Threads Function

/-! ## References -/

namespace Facts

/-- The entry of the inode table that `iget` uses for inode `i`: the one that is there, or an
unused one. -/
def Place (G : Facts) (e : InodeId) (i : ℕ) : Prop :=
  0 < G.ref e ∧ G.inum e = i ∨ G.ref e = 0 ∧ ∀ x, 0 < G.ref x → G.inum x ≠ i

/-- Every allocated inode without links is in use. -/
def NoOrphans (G : Facts) : Prop :=
  ∀ i x, G.seen i = some x → x.nlink = 0 → ∃ e, 0 < G.ref e ∧ G.inum e = i

/-- Every inode in use is allocated. -/
def Allocated (G : Facts) : Prop := ∀ e, 0 < G.ref e → (G.seen (G.inum e)).isSome

/-- What is known about inodes that are in use follows. -/
structure Implies (G G' : Facts) : Prop where
  /-- The same can be seen. -/
  seen : G'.seen = G.seen
  /-- The references are the same. -/
  ref : G'.ref = G.ref
  /-- The inodes in use are the same. -/
  inum : ∀ e, 0 < G.ref e → G'.inum e = G.inum e
  /-- They have been read. -/
  loaded : ∀ e ∈ G'.loaded, 0 < G.ref e → e ∈ G.loaded
  /-- No fewer blocks may have been logged. -/
  log : G.log ⊆ G'.log

variable {G B : Facts} {e n : InodeId} {i j : ℕ}

/-- The entry of an inode in use. -/
theorem place_of_ref (he : 0 < G.ref e) : G.Place e (G.inum e) := Or.inl ⟨he, rfl⟩

/-- The number of an entry in use. -/
theorem Place.inum_eq (h : G.Place e i) (he : 0 < G.ref e) : G.inum e = i := by
  rcases h with ⟨-, hi⟩ | ⟨hzero, -⟩
  · exact hi
  · omega

theorem Place.nonneg (h : G.Place e i) : 0 ≤ G.ref e := by
  rcases h with ⟨hpos, -⟩ | ⟨hzero, -⟩ <;> omega

theorem got_ref_self : (G.got e i).ref e = G.ref e + 1 := update_self e _ G.ref

theorem got_ref_ne {x : InodeId} (hx : x ≠ e) : (G.got e i).ref x = G.ref x :=
  update_of_ne hx _ G.ref

theorem got_inum_self : (G.got e i).inum e = i := update_self e _ G.inum

theorem got_inum_ne {x : InodeId} (hx : x ≠ e) : (G.got e i).inum x = G.inum x :=
  update_of_ne hx _ G.inum

theorem put_ref_self : (G.put e).ref e = G.ref e - 1 := update_self e _ G.ref

theorem put_ref_ne {x : InodeId} (hx : x ≠ e) : (G.put e).ref x = G.ref x :=
  update_of_ne hx _ G.ref

theorem le_got_ref (x : InodeId) : G.ref x ≤ (G.got e i).ref x := by
  by_cases hx : x = e
  · rw [hx, got_ref_self]
    omega
  · rw [got_ref_ne hx]

/-- It does not matter whether the inode has been read. -/
theorem load_implies : (G.load e).Implies G :=
  ⟨rfl, rfl, fun _ _ => rfl, fun _ hl _ => Set.mem_insert_of_mem _ hl, subset_rfl⟩

theorem put_load_implies : ((G.load e).put n).Implies (G.put n) :=
  ⟨rfl, rfl, fun _ _ => rfl, fun _ hl _ => Set.mem_insert_of_mem _ hl, subset_rfl⟩

theorem got_load_implies : ((G.load e).got n j).Implies (G.got n j) :=
  ⟨rfl, rfl, fun _ _ => rfl, fun _ hl _ => ⟨Set.mem_insert_of_mem _ hl.1, hl.2⟩, subset_rfl⟩

/-- The inodes in use before are in use afterwards. -/
theorem Place.got_inum (h : G.Place e i) {x : InodeId} (hx : 0 < G.ref x) :
    0 < (G.got e i).ref x ∧ (G.got e i).inum x = G.inum x := by
  by_cases hxe : x = e
  · rw [hxe] at hx ⊢
    rw [got_ref_self, got_inum_self, h.inum_eq hx]
    exact ⟨by omega, rfl⟩
  · rw [got_ref_ne hxe, got_inum_ne hxe]
    exact ⟨hx, rfl⟩

/-- The entry is in use. -/
theorem Place.got_pos (h : G.Place e i) : 0 < (G.got e i).ref e := by
  have := h.nonneg
  rw [got_ref_self]
  omega

/-- A reference that is given back. -/
theorem Place.put_got (h : G.Place e i) : ((G.got e i).put e).Implies G := by
  have href : ∀ x, ((G.got e i).put e).ref x = G.ref x := by
    intro x
    by_cases hx : x = e
    · rw [hx, put_ref_self, got_ref_self]
      omega
    · rw [put_ref_ne hx, got_ref_ne hx]
  constructor
  · rfl
  · exact (funext href).symm
  · intro x hx
    rw [href] at hx
    exact (h.got_inum hx).2.symm
  · intro x hl hx
    rw [href] at hx
    exact ⟨hl, hx⟩
  · exact subset_rfl

/-- The place of an inode does not depend on the references of the process itself. -/
theorem Place.of_got (h : G.Place e i) (h' : (G.got e i).Place n j) : G.Place n j := by
  have hnonneg := h.nonneg
  by_cases hn : n = e
  · rw [hn] at h' ⊢
    have hpos : 0 < (G.got e i).ref e := by
      rw [got_ref_self]
      omega
    rw [← h'.inum_eq hpos, got_inum_self]
    exact h
  · rcases h' with ⟨hpos, hj⟩ | ⟨hzero, hother⟩
    · rw [got_ref_ne hn] at hpos
      rw [got_inum_ne hn] at hj
      exact .inl ⟨hpos, hj⟩
    · rw [got_ref_ne hn] at hzero
      refine .inr ⟨hzero, fun x hx => ?_⟩
      obtain ⟨hpos, hinum⟩ := h.got_inum hx
      rw [← hinum]
      exact hother x hpos

/-- The process goes on from one inode to the next. -/
theorem Place.put_got_got (h : G.Place e i) :
    (((G.got e i).got n j).put e).Implies (G.got n j) := by
  have href : ∀ x, (((G.got e i).got n j).put e).ref x = (G.got n j).ref x := by
    intro x
    by_cases hx : x = e
    · rw [hx, put_ref_self]
      by_cases hn : e = n
      · rw [← hn, got_ref_self, got_ref_self, got_ref_self]
        omega
      · rw [got_ref_ne hn, got_ref_self, got_ref_ne hn]
        omega
    · rw [put_ref_ne hx]
      by_cases hn : x = n
      · rw [hn] at hx ⊢
        rw [got_ref_self, got_ref_self, got_ref_ne hx]
      · rw [got_ref_ne hn, got_ref_ne hx, got_ref_ne hn]
  constructor
  · rfl
  · exact (funext href).symm
  · intro x hx
    rw [href] at hx
    change (G.got n j).inum x = ((G.got e i).got n j).inum x
    by_cases hn : x = n
    · rw [hn, got_inum_self, got_inum_self]
    · rw [got_ref_ne hn] at hx
      rw [got_inum_ne hn, got_inum_ne hn, (h.got_inum hx).2]
  · rintro x ⟨hl, hx⟩ -
    exact ⟨⟨hl, hx⟩, (h.got_inum hx).1⟩
  · exact subset_rfl

/-- An inode that is only looked at is not freed. -/
theorem NoOrphans.keep (hB : B.NoOrphans) (h : B.Place e i) (hseen : G.seen i = B.seen i)
    (hinum : G.inum e = i) (href : B.ref e < G.ref e) :
    G.ref e = 1 → ∀ x, G.seen (G.inum e) = some x → x.nlink ≠ 0 := by
  intro hone x hx hzero
  rw [hinum, hseen] at hx
  obtain ⟨y, hy, hyi⟩ := hB i x hx hzero
  rcases h with ⟨hpos, -⟩ | ⟨-, hother⟩
  · omega
  · exact hother y hy hyi

/-- An inode that changes is in use. -/
theorem NoOrphans.see {x : Option Seen} {L : Set ℕ} (h : G.NoOrphans) (he : 0 < G.ref e) :
    (G.see (G.inum e) x L).NoOrphans := by
  intro k y hy hzero
  by_cases hk : k = G.inum e
  · exact ⟨e, he, hk.symm⟩
  · refine h k y ?_ hzero
    rwa [← update_of_ne hk x G.seen]

end Facts

/-- What is known about inodes that are in use is enough. -/
theorem Clean.implies {sb : Superblock} {s : Fs} {G G' : Facts} (h : Clean sb s G)
    (hG : G.Implies G') : Clean sb s G' := by
  have href : ∀ e, G'.ref e = G.ref e := fun e => congrFun hG.ref e
  have hinum : ∀ e, 0 < G'.ref e → G'.inum e = G.inum e := by
    intro e he
    rw [href] at he
    exact hG.inum e he
  constructor
  · exact h.owned
  · exact h.held
  · exact h.solid
  · exact h.names
  · rw [hG.seen]
    exact h.seen
  · rw [hG.ref]
    exact h.ref
  · rw [hG.ref]
    exact h.nonneg
  · intro e he
    rw [hinum e he]
    rw [href] at he
    exact h.inum e he
  · intro e e' he he' heq
    rw [hinum e he, hinum e' he'] at heq
    rw [href] at he he'
    exact h.unique e e' he he' heq
  · intro e he hv
    rw [hinum e he]
    rw [href] at he
    exact h.copy e he hv
  · intro e hl he
    rw [href] at he
    exact h.valid e (hG.loaded e hl he) he
  · intro b hb
    exact (h.logged b hb).imp_right fun hmem => hG.log hmem

section Table

variable {sb : Superblock} {s : Fs} {G : Facts} {e : InodeId} {i : ℕ}

/-- The reference count of an inode in use changes. -/
theorem Clean.setRef {r : ℤ} (h : Clean sb s G) (he : 0 < G.ref e) (hr : 0 ≤ r) :
    Clean sb (s.setInode e { s.itable e with ref := r })
      { G with ref := update G.ref e r } := by
  have hpos : ∀ x, 0 < update G.ref e r x → 0 < G.ref x := by
    intro x hx
    by_cases hxe : x = e
    · rwa [hxe]
    · rwa [update_of_ne hxe] at hx
  refine h.retable ?_ ?_ ?_ ?_ ?_ ?_
  · intro x
    by_cases hx : x = e
    · rw [hx, update_self, update_self]
    · rw [update_of_ne hx, update_of_ne hx, h.ref]
  · intro x
    by_cases hx : x = e
    · rwa [hx, update_self]
    · rw [update_of_ne hx]
      exact h.nonneg x
  · intro x hx
    by_cases hxe : x = e
    · rw [hxe, update_self]
      exact h.inum e he
    · rw [update_of_ne hxe]
      exact h.inum x (hpos x hx)
  · intro x y hx hy
    exact h.unique x y (hpos x hx) (hpos y hy)
  · intro x hx hv
    by_cases hxe : x = e
    · rw [hxe, update_self] at hv ⊢
      exact h.copy e he hv
    · rw [update_of_ne hxe] at hv ⊢
      exact h.copy x (hpos x hx) hv
  · intro x hl hx
    by_cases hxe : x = e
    · rw [hxe] at hl
      rw [hxe, update_self]
      exact h.valid e hl he
    · rw [update_of_ne hxe]
      exact h.valid x hl (hpos x hx)

/-- A further reference to an inode in use. -/
theorem Clean.got_used (h : Clean sb s G) (he : 0 < G.ref e) :
    Clean sb (s.setInode e { s.itable e with ref := (s.itable e).ref + 1 })
      (G.got e (G.inum e)) := by
  rw [h.ref]
  refine (h.setRef he (by omega)).implies ⟨rfl, rfl, ?_, ?_, subset_rfl⟩
  · intro x _
    exact congrFun (update_eq_self e G.inum) x
  · rintro x ⟨hl, -⟩ -
    exact hl

/-- A reference is dropped. -/
theorem Clean.put (h : Clean sb s G) (he : 0 < G.ref e) :
    Clean sb (s.setInode e { s.itable e with ref := (s.itable e).ref - 1 }) (G.put e) := by
  rw [h.ref]
  exact h.setRef he (by omega)

/-- A first reference to an inode that is not in memory. -/
theorem Clean.got_new (h : Clean sb s G) (he : G.ref e = 0) (hi : i < sb.ninodes)
    (hother : ∀ x, 0 < G.ref x → G.inum x ≠ i) :
    Clean sb (s.setInode e { s.itable e with inum := i, ref := 1, valid := false })
      (G.got e i) := by
  have hpos : ∀ x, x ≠ e → 0 < update G.ref e (G.ref e + 1) x → 0 < G.ref x := by
    intro x hxe hx
    rwa [update_of_ne hxe] at hx
  refine h.retable ?_ ?_ ?_ ?_ ?_ ?_
  · intro x
    by_cases hx : x = e
    · rw [hx, update_self, update_self, he]
      rfl
    · rw [update_of_ne hx, update_of_ne hx, h.ref]
  · intro x
    by_cases hx : x = e
    · rw [hx, update_self]
      omega
    · rw [update_of_ne hx]
      exact h.nonneg x
  · intro x hx
    by_cases hxe : x = e
    · rw [hxe, update_self, update_self]
      exact ⟨rfl, hi⟩
    · rw [update_of_ne hxe, update_of_ne hxe]
      exact h.inum x (hpos x hxe hx)
  · intro x y hx hy heq
    by_cases hxe : x = e
    · by_cases hye : y = e
      · rw [hxe, hye]
      · rw [hxe, update_self, update_of_ne hye] at heq
        exact absurd heq.symm (hother y (hpos y hye hy))
    · by_cases hye : y = e
      · rw [hye, update_self, update_of_ne hxe] at heq
        exact absurd heq (hother x (hpos x hxe hx))
      · rw [update_of_ne hxe, update_of_ne hye] at heq
        exact h.unique x y (hpos x hxe hx) (hpos y hye hy) heq
  · intro x hx hv
    by_cases hxe : x = e
    · rw [hxe, update_self] at hv
      cases hv
    · rw [update_of_ne hxe] at hv ⊢
      rw [update_of_ne hxe]
      exact h.copy x (hpos x hxe hx) hv
  · rintro x ⟨hl, hx⟩ -
    have hxe : x ≠ e := by
      rintro rfl
      omega
    rw [update_of_ne hxe]
    exact h.valid x hl hx

/-- `iget` finds the inode in the table. -/
theorem findInode_eq_some {table : InodeId → Inode} (h : findInode table i = some e) :
    0 < (table e).ref ∧ (table e).inum = i := by
  simpa using List.find?_some h

/-- The inode is not in the table. -/
theorem findInode_eq_none {table : InodeId → Inode} (h : findInode table i = none) (e : InodeId)
    (he : 0 < (table e).ref) : (table e).inum ≠ i := by
  have := List.find?_eq_none.mp h e (List.mem_finRange e)
  simp only [decide_eq_true_eq, not_and] at this
  exact this he

/-- The entry is not in use. -/
theorem findEmpty_eq_some {table : InodeId → Inode} (h : findEmpty table = some e) :
    (table e).ref = 0 := by
  simpa using List.find?_some h

end Table

/-! ## Sections of the kernel -/

section Sections

variable {P : Type}

/-- A process runs alone, from state `s0` on, and has come to `s`. -/
structure Solo (sb : Superblock) (s0 s : Kernel P) (G : Facts) : Prop where
  /-- The current directories are the same. -/
  cwd : s.cwd = s0.cwd
  /-- The file system. -/
  clean : Clean sb s.fs G

variable {sb : Superblock} {p : P} {s0 s s' : Kernel P} {G G' B : Facts} {e : InodeId} {i : ℕ}

/-- A step that keeps the current directories. -/
theorem Solo.next (h : Solo sb s0 s G) (hsame : s'.cwd = s.cwd) (hclean : Clean sb s'.fs G') :
    Solo sb s0 s' G' :=
  ⟨hsame.trans h.cwd, hclean⟩

/-- Fewer facts. -/
theorem Solo.implies (h : Solo sb s0 s G) (hG : G.Implies G') : Solo sb s0 s G' :=
  ⟨h.cwd, h.clean.implies hG⟩

/-- `ilock` reads the inode. -/
theorem Solo.ilock (h : Solo sb s0 s G) (he : 0 < G.ref e) :
    Ends p (ilock sb e) s fun d s' => Solo sb s0 s' (G.load e) ∧
      ∃ bytes, G.seen (G.inum e) = some (Seen.of d bytes) := by
  refine Ends.step fun d s' w hdone => ?_
  split at hdone
  · cases hdone
  split at hdone
  · cases hdone
  cases hrun : iload sb e s.fs with
  | ok u fs =>
    rw [hrun] at hdone
    cases hdone
    have hclean := h.clean.iload_after he u fs hrun
    exact ⟨h.next rfl hclean, _, hclean.seen_loaded he (Set.mem_insert _ _)⟩
  | panic msg fs =>
    rw [hrun] at hdone
    cases hdone
  | stuck fs =>
    rw [hrun] at hdone
    cases hdone

/-- `iput` drops a reference; if it is the last one to an inode without links, the inode is
freed. -/
theorem Solo.iput (h : Solo sb s0 s G) (he : 0 < G.ref e) :
    Ends p (iput sb e) s fun _ s' =>
      (Solo sb s0 s' (G.put e) ∧ (G.ref e = 1 → e ∈ G.loaded → ∀ x,
        G.seen (G.inum e) = some x → x.nlink ≠ 0)) ∨
      ((G.ref e = 1 ∧ ∃ x, G.seen (G.inum e) = some x ∧ x.nlink = 0) ∧
        Solo sb s0 s' (((G.see (G.inum e) none {sb.iblock (G.inum e)}).unload e).put e)) := by
  refine Ends.bind (Q := fun freed s' =>
    (freed = false ∧ Solo sb s0 s' (G.put e) ∧ (G.ref e = 1 → e ∈ G.loaded → ∀ x,
      G.seen (G.inum e) = some x → x.nlink ≠ 0)) ∨
    (freed = true ∧ (G.ref e = 1 ∧ ∃ x, G.seen (G.inum e) = some x ∧ x.nlink = 0) ∧
      Solo sb s0 s' ((G.see (G.inum e) none {sb.iblock (G.inum e)}).unload e))) ?_ ?_
  · refine Ends.step fun freed s' w hdone => ?_
    unfold iputSection at hdone
    split at hdone
    · rename_i hlast
      obtain ⟨hone, hv, hzero⟩ := hlast
      split at hdone
      · cases hdone
      cases hrun : ifree sb e s.fs with
      | ok u fs =>
        rw [hrun] at hdone
        cases hdone
        have hseen := (h.clean.loaded hv).seen_loaded he (Set.mem_insert _ _)
        refine .inr ⟨rfl, ⟨(h.clean.ref e).symm.trans hone, _, hseen, hzero⟩, ?_⟩
        exact h.next rfl (h.clean.ifree_after he hv u fs hrun)
      | panic msg fs =>
        rw [hrun] at hdone
        cases hdone
      | stuck fs =>
        rw [hrun] at hdone
        cases hdone
    · rename_i hnot
      cases hdone
      refine .inl ⟨rfl, h.next rfl (h.clean.put he), fun hone hl x hx hzero => ?_⟩
      refine hnot ⟨(h.clean.ref e).trans hone, h.clean.valid e hl he, ?_⟩
      rw [h.clean.seen_loaded he hl] at hx
      cases hx
      exact hzero
  · rintro freed s1 (⟨rfl, h1, hcond⟩ | ⟨rfl, hcond, h1⟩)
    · exact Ends.ret (.inl ⟨h1, hcond⟩)
    · exact Ends.update (.inr ⟨hcond, h1.next rfl (h1.clean.put he)⟩)

/-- `iput` of an inode that has links or other references. -/
theorem Solo.iput_keep (h : Solo sb s0 s G) (he : 0 < G.ref e)
    (hkeep : G.ref e = 1 → ∀ x, G.seen (G.inum e) = some x → x.nlink ≠ 0) :
    Ends p (RiscvKernel.iput sb e) s fun _ s' => Solo sb s0 s' (G.put e) := by
  refine (h.iput he).mono ?_
  rintro u s' (⟨h', -⟩ | ⟨⟨hone, x, hx, hzero⟩, -⟩)
  · exact h'
  · exact absurd hzero (hkeep hone x hx)

variable [DecidableEq P]

/-- `iunlock` changes nothing but the lock. -/
theorem Solo.iunlock (h : Solo sb s0 s G) :
    Ends p (iunlock e) s fun _ s' => Solo sb s0 s' G := by
  refine Ends.step fun u s' w hdone => ?_
  split at hdone
  · cases hdone
    exact h.next rfl h.clean
  · cases hdone

/-- `iunlockput` of an inode that has links or other references. -/
theorem Solo.iunlockput_keep (h : Solo sb s0 s G) (he : 0 < G.ref e)
    (hkeep : G.ref e = 1 → ∀ x, G.seen (G.inum e) = some x → x.nlink ≠ 0) :
    Ends p (iunlockput sb e) s fun _ s' => Solo sb s0 s' (G.put e) :=
  h.iunlock.bind fun _ _ h' => h'.iput_keep he hkeep

/-! ## Directories and paths -/

/-- A reference to an inode that has been looked at is given back. -/
theorem Solo.drop (hno : B.NoOrphans) (hplace : B.Place e i)
    (h : Solo sb s0 s ((B.got e i).load e)) :
    Ends p (iunlockput sb e) s fun _ s' => Solo sb s0 s' B := by
  have hself : ((B.got e i).load e).ref e = B.ref e + 1 := Facts.got_ref_self (i := i)
  refine (h.iunlockput_keep hplace.got_pos
    (hno.keep hplace rfl Facts.got_inum_self (by omega))).mono fun u s1 h1 => ?_
  exact (h1.implies Facts.put_load_implies).implies hplace.put_got

/-- The process goes on from one inode to the next. -/
theorem Solo.advance {n : InodeId} {j : ℕ} (hno : B.NoOrphans) (hplace : B.Place e i)
    (hplace' : (B.got e i).Place n j) (h : Solo sb s0 s (((B.got e i).load e).got n j)) :
    Ends p (iunlockput sb e) s fun _ s' => Solo sb s0 s' (B.got n j) := by
  have hself : (B.got e i).ref e = B.ref e + 1 := Facts.got_ref_self
  have hinum : (B.got e i).inum e = i := Facts.got_inum_self
  obtain ⟨hpos, hinum'⟩ := hplace'.got_inum hplace.got_pos
  have hle : (B.got e i).ref e ≤ ((B.got e i).got n j).ref e := Facts.le_got_ref e
  refine ((h.implies Facts.got_load_implies).iunlockput_keep hpos
    (hno.keep hplace rfl (hinum'.trans hinum) (by omega))).mono fun u s1 h1 => ?_
  exact h1.implies hplace.put_got_got

end Sections

end RiscvKernel
