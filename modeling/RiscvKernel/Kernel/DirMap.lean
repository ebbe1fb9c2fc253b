import RiscvKernel.Kernel.Solo
import RiscvKernel.Fs.Names

/-!
# A directory as a map

`dirlookup` and `dirlink` with the name in a buffer. On a directory whose entries have distinct
names they look up and extend a finite map from names to inode numbers; the part of `sys_unlink`
that clears an entry takes a name out of it.
-/

namespace RiscvKernel

open Threads Function

section Programs

variable {P : Type} [DecidableEq P] (sb : Superblock)

/-- `dirlookup` of the name in a buffer. -/
def dirlookupAt (e : InodeId) (name : Mem) : KProg P (Option (InodeId × ℕ)) := do
  match ← fsCall (dirlookupScanAt sb e name) with
  | none => return none
  | some (inum, off) =>
    let next ← iget inum
    return some (next, off)

/-- `dirlink` of the name in a buffer. -/
def dirlinkAt (e : InodeId) (name : Mem) (inum : ℕ) : KProg P ℤ := do
  match ← dirlookupAt sb e name with
  | some (next, _) =>
    iput sb next
    return -1
  | none =>
    let r ← fsCall (dirlinkStoreAt sb e name inum)
    return if r.isSome then 0 else -1

end Programs

section Sections

variable {P : Type} {sb : Superblock} {p : P} {s : Kernel P} {x : InodeId} {inum : ℕ}

/-- `iget` finds no entry in the table. -/
def TableFull (s : Fs) (msg : String) : Prop :=
  msg = "iget: no inodes" ∧ ∀ x, (s.itable x).ref ≠ 0

/-- There is one more reference to an inode, in the entry that it has in the table or in a free
one. -/
inductive GotInode (s s' : Fs) (x : InodeId) (inum : ℕ) : Prop
  | used (hpos : 0 < (s.itable x).ref) (hinum : (s.itable x).inum = inum)
    (hfs : s' = s.setInode x { s.itable x with ref := (s.itable x).ref + 1 })
  | free (hzero : (s.itable x).ref = 0) (hother : ∀ y, 0 < (s.itable y).ref →
      (s.itable y).inum ≠ inum)
    (hfs : s' = s.setInode x { s.itable x with inum := inum, ref := 1, valid := false })

/-- `iget` fails only if the table is full. -/
theorem iget_returns : Returns p (TableFull s.fs) (iget inum) s
    fun x s' => GotInode s.fs s'.fs x inum ∧ s'.cwd = s.cwd ∧ s'.lock = s.lock := by
  cases hfind : findInode s.fs.itable inum with
  | some x =>
    obtain ⟨hpos, hinum⟩ := findInode_eq_some hfind
    have hsec : igetSection inum s = .done x
        (s.setInode x { s.fs.itable x with ref := (s.fs.itable x).ref + 1 }) [] := by
      unfold igetSection
      rw [hfind]
    exact Returns.of_done hsec ⟨.used hpos hinum rfl, rfl, rfl⟩
  | none =>
    cases hempty : findEmpty s.fs.itable with
    | some x =>
      have hsec : igetSection inum s = .done x
          (s.setInode x { s.fs.itable x with inum := inum, ref := 1, valid := false }) [] := by
        unfold igetSection
        rw [hfind, hempty]
      exact Returns.of_done hsec ⟨.free (findEmpty_eq_some hempty) (findInode_eq_none hfind) rfl,
        rfl, rfl⟩
    | none =>
      have hsec : igetSection inum s = .panic "iget: no inodes" := by
        unfold igetSection
        rw [hfind, hempty]
      refine Returns.of_panic hsec ⟨rfl, fun x hzero => ?_⟩
      have hno := List.find?_eq_none.1 hempty x (List.mem_finRange x)
      simp [hzero] at hno

/-- Nothing on disk has changed. -/
theorem GotInode.blocks {t t' : Fs} (h : GotInode t t' x inum) : t'.blocks = t.blocks := by
  cases h with
  | used _ _ hfs => rw [hfs]; rfl
  | free _ _ hfs => rw [hfs]; rfl

/-- `iput` right after `iget` frees nothing. -/
theorem GotInode.not_freed {t t' : Fs} (h : GotInode t t' x inum) : ¬ ((t'.itable x).ref = 1 ∧
    (t'.itable x).valid = true ∧ (t'.itable x).d.nlink = 0) := by
  rintro ⟨hone, hvalid, -⟩
  cases h with
  | used hpos _ hfs =>
    have hself : t'.itable x = { t.itable x with ref := (t.itable x).ref + 1 } := by
      rw [hfs]
      exact update_self x _ t.itable
    rw [hself] at hone
    dsimp only at hone
    omega
  | free _ _ hfs =>
    have hself : t'.itable x = { t.itable x with inum := inum, ref := 1, valid := false } := by
      rw [hfs]
      exact update_self x _ t.itable
    rw [hself] at hvalid
    cases hvalid

/-- `iput` of an inode that it does not free drops a reference. -/
theorem iput_drops {E : String → Prop} (hnot : ¬ ((s.fs.itable x).ref = 1 ∧
      (s.fs.itable x).valid = true ∧ (s.fs.itable x).d.nlink = 0)) :
    Returns p E (iput sb x) s fun _ s' => s'.fs = s.fs.setInode x
      { s.fs.itable x with ref := (s.fs.itable x).ref - 1 } ∧ s'.lock = s.lock := by
  have hsec : iputSection sb x s = .done false
      (s.setInode x { s.fs.itable x with ref := (s.fs.itable x).ref - 1 }) [] := by
    unfold iputSection
    rw [if_neg hnot]
  refine Returns.bind (Q := fun freed s' => freed = false ∧ s'.fs = s.fs.setInode x
      { s.fs.itable x with ref := (s.fs.itable x).ref - 1 } ∧ s'.lock = s.lock)
    (Returns.of_done hsec ⟨rfl, rfl, rfl⟩) ?_
  rintro freed s' ⟨rfl, hdropped⟩
  exact Returns.ret hdropped

/-- A section of a function that returns. -/
theorem fsCall_returns {α : Type} {m : FsM α} {E : String → Prop} {a : α} {fs : Fs}
    (hm : m s.fs = .ok a fs) : Returns p E (fsCall m) s fun a' s' =>
      a' = a ∧ s'.fs = fs ∧ s'.cwd = s.cwd ∧ s'.lock = s.lock := by
  have hrun : (fsCall m).exec p s = .ok a { s with fs := fs } := by
    simp only [fsCall, exec_step, hm]
  exact .of_eq hrun ⟨rfl, rfl, rfl, rfl⟩

end Sections

section Directory

variable {P : Type} {sb : Superblock} {V : ℕ → Dinode} {i : ℕ} {e : InodeId}
  {p : P} {s : Kernel P}

/-- A directory depends on the blocks and its own entry of the table. -/
theorem AtDir.congr {t t' : Fs} (h : AtDir sb V i e t) (hblocks : t'.blocks = t.blocks)
    (hheld : t'.held = t.held) (hd : (t'.itable e).d = (t.itable e).d)
    (hinum : (t'.itable e).inum = (t.itable e).inum) : AtDir sb V i e t' :=
  ⟨hblocks ▸ h.owned, h.view.trans hd.symm, hinum.trans h.inum, h.lt, hheld.trans h.held, h.dir,
    hblocks ▸ h.solid, h.whole⟩

/-- A change of a reference count does not touch a directory. -/
theorem AtDir.setRef {t : Fs} (h : AtDir sb V i e t) (x : InodeId) (r : ℤ) :
    AtDir sb V i e (t.setInode x { t.itable x with ref := r }) := by
  by_cases hx : e = x
  · have hself : (t.setInode x { t.itable x with ref := r }).itable e =
        { t.itable x with ref := r } := by
      rw [hx]
      exact update_self x _ t.itable
    refine h.congr rfl rfl ?_ ?_
    · rw [hself, hx]
    · rw [hself, hx]
  · have hsame : (t.setInode x { t.itable x with ref := r }).itable e = t.itable e :=
      update_of_ne hx _ t.itable
    refine h.congr rfl rfl ?_ ?_
    · rw [hsame]
    · rw [hsame]

/-- Another reference does not touch a directory in use. -/
theorem AtDir.got {t t' : Fs} {x : InodeId} {inum : ℕ} (h : AtDir sb V i e t)
    (href : 0 < (t.itable e).ref) (hgot : GotInode t t' x inum) : AtDir sb V i e t' := by
  cases hgot with
  | used _ _ hfs =>
    rw [hfs]
    exact h.setRef x _
  | free hzero _ hfs =>
    have hx : e ≠ x := by
      rintro rfl
      omega
    have hsame : t'.itable e = t.itable e := by
      rw [hfs]
      exact update_of_ne hx _ t.itable
    refine h.congr (by rw [hfs]; rfl) (by rw [hfs]; rfl) ?_ ?_
    · rw [hsame]
    · rw [hsame]

/-- What `dirlookup` returns for an entry found at an offset. -/
def Looked (s s' : Fs) (found : Option (ℕ × ℕ)) (r : Option (InodeId × ℕ)) : Prop :=
  match found with
  | none => r = none ∧ s' = s
  | some (inum, off) => ∃ x, r = some (x, off) ∧ GotInode s s' x inum

/-- `dirlookup` on a directory. -/
theorem AtDir.dirlookupAt_returns (h : AtDir sb V i e s.fs) (name : Mem) :
    Returns p (TableFull s.fs) (dirlookupAt sb e name) s fun r s' =>
      Looked s.fs s'.fs (dirFind sb V s.fs.blocks i (nameOf name)) r ∧ s'.cwd = s.cwd ∧
        s'.lock = s.lock := by
  have hscan := (h.dirlookupScanAt_eq name).trans (h.dirlookupScan_eq (nameOf name))
  refine (fsCall_returns hscan).bind ?_
  rintro r s1 ⟨rfl, hfs, hsame, hlock⟩
  cases hfind : dirFind sb V s.fs.blocks i (nameOf name) with
  | none => exact Returns.ret ⟨⟨rfl, hfs⟩, hsame, hlock⟩
  | some found =>
    rw [← hfs]
    refine iget_returns.bind ?_
    rintro x s2 ⟨hgot, hsame', hlock'⟩
    exact Returns.ret ⟨⟨x, rfl, hgot⟩, hsame'.trans hsame, hlock'.trans hlock⟩

/-- What `dirlink` does to the map: it fails on a name that is present and when there is no space,
or else it adds the name, in a free slot if there is one. -/
def Linked (sb : Superblock) (i : ℕ) (V : ℕ → Dinode) (s : Fs) (name : Mem) (inum : ℕ)
    (V' : ℕ → Dinode) (s' : Fs) (r : ℤ) : Prop :=
  r = -1 ∧ (∀ k, entry sb V' s'.blocks i k = entry sb V s.blocks i k) ∧
      ((dirFind sb V s.blocks i (nameOf name)).isSome ∨ ¬ HasFree sb V s.blocks i ∧
        (maxfile * bsize < (V i).size.toNat + direntSize ∨ s.denied < s'.denied)) ∨
    r = 0 ∧ dirFind sb V s.blocks i (nameOf name) = none ∧
      (∃ off, ∀ name' : Mem, dirFind sb V' s'.blocks i (nameOf name') =
        if namecmp name name' = 0 then some (inum, off)
        else dirFind sb V s.blocks i (nameOf name')) ∧
      (HasFree sb V s.blocks i → (V' i).size = (V i).size)

/-- `dirlink` on a directory. -/
theorem AtDir.dirlinkAt_returns (h : AtDir sb V i e s.fs) (hd : Distinct sb V s.fs.blocks i)
    (href : 0 < (s.fs.itable e).ref) (name : Mem) {inum : ℕ} (hpos : 0 < inum)
    (hinum : inum < 2 ^ 16) :
    Returns p (TableFull s.fs) (dirlinkAt sb e name inum) s fun r s' => ∃ V',
      AtDir sb V' i e s'.fs ∧ Distinct sb V' s'.fs.blocks i ∧
        Linked sb i V s.fs name inum V' s'.fs r := by
  refine (h.dirlookupAt_returns name).bind ?_
  rintro r s1 ⟨hlook, -, -⟩
  unfold Looked at hlook
  cases hfind : dirFind sb V s.fs.blocks i (nameOf name) with
  | some found =>
    rw [hfind] at hlook
    obtain ⟨x, rfl, hgot⟩ := hlook
    have h1 := h.got href hgot
    refine (iput_drops hgot.not_freed).bind ?_
    rintro u s2 ⟨hfs, -⟩
    have hblocks : s2.fs.blocks = s.fs.blocks := by
      rw [hfs]
      exact hgot.blocks
    refine Returns.ret ⟨V, ?_, ?_, .inl ⟨rfl, ?_, ?_⟩⟩
    · rw [hfs]
      exact h1.setRef x _
    · rwa [hblocks]
    · intro k
      rw [hblocks]
    · rw [hfind]
      exact .inl rfl
  | none =>
    rw [hfind] at hlook
    obtain ⟨rfl, hfs⟩ := hlook
    have h1 : AtDir sb V i e s1.fs := by rwa [hfs]
    obtain ⟨r, t, V', hrun, h', hd', hcase⟩ := h.dirlinkStore_spec hd hfind hpos hinum
      (length_strOf_le _ _) fun c hc => strOf_ne_zero hc
    have hstore : dirlinkStoreAt sb e name inum s1.fs = .ok r t := by
      rw [h1.dirlinkStoreAt_eq, hfs, hrun]
    refine (fsCall_returns hstore).bind ?_
    rintro a s2 ⟨rfl, hfs2, -, -⟩
    refine Returns.ret ⟨V', by rwa [hfs2], by rwa [hfs2], ?_⟩
    rw [hfs2]
    rcases hcase with ⟨rfl, hsame, hno, hspace⟩ | ⟨k, rfl, hmap, hreuse⟩
    · exact .inl ⟨rfl, hsame, .inr ⟨hno, hspace⟩⟩
    · refine .inr ⟨rfl, hfind, ⟨direntSize * k, fun name' => ?_⟩, hreuse⟩
      simp only [hmap, namecmp_eq_zero]

/-- A directory with distinct names is a map: `dirlookup` looks a name up, `dirlink` adds one, and
clearing the entry that `dirlookup` has found removes one. None of them fails to read. -/
theorem directory_is_map (sb : Superblock) (V : ℕ → Dinode) (i : ℕ) (e : InodeId) (p : P)
    (s : Kernel P) (h : AtDir sb V i e s.fs) (hd : Distinct sb V s.fs.blocks i)
    (href : 0 < (s.fs.itable e).ref) :
    (∀ name, Returns p (TableFull s.fs) (dirlookupAt sb e name) s fun r s' =>
      Looked s.fs s'.fs (dirFind sb V s.fs.blocks i (nameOf name)) r) ∧
    (∀ name inum, 0 < inum → inum < 65536 →
      Returns p (TableFull s.fs) (dirlinkAt sb e name inum) s fun r s' => ∃ V',
        AtDir sb V' i e s'.fs ∧ Distinct sb V' s'.fs.blocks i ∧
          Linked sb i V s.fs name inum V' s'.fs r) ∧
    ∀ name inum off, dirFind sb V s.fs.blocks i (nameOf name) = some (inum, off) →
      ∃ s' V', clearDirent sb e off s.fs = .ok () s' ∧ AtDir sb V' i e s' ∧
        Distinct sb V' s'.blocks i ∧ (V' i).size = (V i).size ∧
        ∀ name' : Mem, dirFind sb V' s'.blocks i (nameOf name') =
          if namecmp name name' = 0 then none else dirFind sb V s.fs.blocks i (nameOf name') := by
  refine ⟨fun name => (h.dirlookupAt_returns name).mono fun _ _ hr => hr.1, ?_, ?_⟩
  · intro name inum hpos hinum
    exact h.dirlinkAt_returns hd href name hpos hinum
  · intro name inum off hfound
    obtain ⟨s', V', hrun, h', hd', hsize, hmap⟩ := h.clearDirent_spec hd hfound
    refine ⟨s', V', hrun, h', hd', hsize, fun name' => ?_⟩
    simp only [hmap, namecmp_eq_zero]

end Directory

/-! ## The root of a new file system -/

/-- The entries of the root directory. -/
theorem freshFs_entry (k : ℕ) : entry mkfsSb (freshFs.dinode mkfsSb) freshFs.blocks rootino k =
    if k = 0 then some ⟨rootino, dot⟩ else if k = 1 then some ⟨rootino, dotdot⟩ else none := by
  have hsmall : ∀ k < 64, entry mkfsSb (freshFs.dinode mkfsSb) freshFs.blocks rootino k =
      if k = 0 then some ⟨rootino, dot⟩ else if k = 1 then some ⟨rootino, dotdot⟩ else none := by
    decide +kernel
  by_cases hk : k < 64
  · exact hsmall k hk
  · have hsize : (freshFs.dinode mkfsSb rootino).size.toNat = 1024 := by
      rw [freshFs_dinode (by decide), if_pos rfl]
      rfl
    rw [if_neg (by omega), if_neg (by omega)]
    unfold entry
    rw [if_neg]
    rintro ⟨hfit, -⟩
    rw [hsize] at hfit
    unfold direntSize at hfit
    omega

theorem rootLoaded_atDir : AtDir mkfsSb (freshFs.dinode mkfsSb) rootino 0 rootLoaded := by
  have hroot : freshFs.dinode mkfsSb rootino = rootDinode := by
    rw [freshFs_dinode (by decide), if_pos rfl]
  constructor
  · exact freshFs_owned
  · exact hroot
  · rfl
  · decide
  · rfl
  · rw [hroot]
    rfl
  · exact freshFs_solid
  · rw [hroot]
    decide

theorem freshFs_distinct : Distinct mkfsSb (freshFs.dinode mkfsSb) freshFs.blocks rootino := by
  intro k l de de' hk hl hsame
  have hname : ∀ {k de}, entry mkfsSb (freshFs.dinode mkfsSb) freshFs.blocks rootino k = some de →
      k = 0 ∧ de.name = dot ∨ k = 1 ∧ de.name = dotdot := by
    intro k de hk
    rw [freshFs_entry] at hk
    split at hk
    · cases hk
      exact .inl ⟨by assumption, rfl⟩
    · split at hk
      · cases hk
        exact .inr ⟨by assumption, rfl⟩
      · cases hk
  have hne : dot ≠ dotdot := by decide
  rcases hname hk with ⟨rfl, hk'⟩ | ⟨rfl, hk'⟩
  · rcases hname hl with ⟨rfl, -⟩ | ⟨-, hl'⟩
    · rfl
    · exact absurd (hk'.symm.trans (hsame.trans hl')) hne
  · rcases hname hl with ⟨-, hl'⟩ | ⟨rfl, -⟩
    · exact absurd (hl'.symm.trans (hsame.symm.trans hk')) hne
    · rfl

/-- A kernel that has the root directory in memory. -/
def rootKernel : Kernel Unit where
  fs := rootLoaded
  lock := fun _ => none
  cwd := fun _ => some 0
  outstanding := 0

/-- A name of 14 bytes is added to the root directory and found afterwards. -/
theorem directory_is_map_root : ∃ (s' : Kernel Unit) (V' : ℕ → Dinode) (off : ℕ),
    (dirlinkAt mkfsSb 0 (fun _ => 97) 2).exec () rootKernel = .ok 0 s' ∧
      dirFind mkfsSb V' s'.fs.blocks rootino (List.replicate 14 97) = some (2, off) := by
  obtain ⟨-, hlink, -⟩ := directory_is_map mkfsSb (freshFs.dinode mkfsSb) rootino 0 () rootKernel
    rootLoaded_atDir freshFs_distinct (by decide)
  have hfree : HasFree mkfsSb (freshFs.dinode mkfsSb) freshFs.blocks rootino := by
    refine ⟨2, ?_, by rw [freshFs_entry]; rfl⟩
    rw [freshFs_dinode (by decide), if_pos rfl]
    decide
  have hnew : dirFind mkfsSb (freshFs.dinode mkfsSb) freshFs.blocks rootino
      (nameOf fun _ => 97) = none := by
    rw [dirFind_eq_none]
    intro k de hk
    rw [freshFs_entry] at hk
    split at hk
    · cases hk
      decide
    · split at hk
      · cases hk
        decide
      · cases hk
  rcases Seq.Runs.cases (hlink (fun _ => 97) 2 (by decide) (by decide)) with
    ⟨r, s', hok, V', -, -, hlinked⟩ | ⟨msg, s', -, -, hfull⟩
  · rcases hlinked with ⟨-, -, hpresent | ⟨hno, -⟩⟩ | ⟨rfl, -, ⟨off, hmap⟩, -⟩
    · rw [show rootKernel.fs.blocks = freshFs.blocks from rfl, hnew] at hpresent
      cases hpresent
    · exact absurd hfree hno
    · exact ⟨s', V', off, hok, (hmap fun _ => 97).trans (if_pos (by decide))⟩
  · exact absurd rfl (hfull 1)

end RiscvKernel
