import RiscvKernel.Kernel.DirMap
import RiscvKernel.Paths

/-!
# Walking a path

`namex` with the path and the name in memory. A process that runs alone on a well-formed tree ends
at the inode that the components of the path lead to, one directory after the other, and holds one
more reference than before.
-/

namespace RiscvKernel

open Threads Function

/-! ## The tree -/

/-- The inode that a name stands for in directory `i`. -/
def Fs.child (s : Fs) (sb : Superblock) (i : ℕ) (name : Name) : Option ℕ :=
  if (s.dinode sb i).type = tDir then
    (dirFind sb (s.dinode sb) s.blocks i name).map Prod.fst
  else none

/-- The inode that names lead to from inode `i`, one after the other. -/
def Fs.resolve (s : Fs) (sb : Superblock) (i : ℕ) (names : List Name) : Option ℕ :=
  names.foldlM (s.child sb) i

/-- The names in a path. -/
def pathNames (path : List UInt8) : List Name := (components path).map (List.take dirsiz)

/-- A tree: its root and what its directories name are allocated, and directories consist of whole
entries. -/
structure Tree (sb : Superblock) (s : Fs) : Prop where
  /-- The root is allocated. -/
  root : (s.dinode sb rootino).type ≠ 0
  /-- Directories consist of whole entries. -/
  whole : ∀ i < sb.ninodes, (s.dinode sb i).type = tDir →
    direntSize ∣ (s.dinode sb i).size.toNat
  /-- Entries name allocated inodes. -/
  names : ∀ i < sb.ninodes, (s.dinode sb i).type = tDir → ∀ k de,
    entry sb (s.dinode sb) s.blocks i k = some de → (s.dinode sb de.inum).type ≠ 0

section Programs

variable {P : Type} [DecidableEq P] (sb : Superblock)

/-- The loop of `namex` on a path in memory. The loops of `skipelem` may take `bound` rounds. -/
def namexLoop (parent : Bool) (bound name : ℕ) :
    ℕ → InodeId → Mem → ℕ → KProg P (Option InodeId × Mem)
  | 0, _, mem, _ => return (none, mem)
  | fuel + 1, e, mem, path =>
    match skipelemAt bound mem path name with
    | none => return (none, mem)
    | some (path, mem) =>
      if path = 0 then
        if parent then do
          iput sb e
          return (none, mem)
        else return (some e, mem)
      else do
        let d ← ilock sb e
        if d.type ≠ tDir then
          iunlockput sb e
          return (none, mem)
        else if parent ∧ mem path = 0 then
          iunlock e
          return (some e, mem)
        else
          match ← dirlookupAt sb e fun j => mem (name + j) with
          | none =>
            iunlockput sb e
            return (none, mem)
          | some (next, _) =>
            iunlockput sb e
            namexLoop parent bound name fuel next mem path

/-- `namex` on a path in memory. -/
def namexAt (parent : Bool) (bound : ℕ) (mem : Mem) (path name : ℕ) :
    KProg P (Option InodeId × Mem) := do
  let e ← if mem path = slash then iget rootino else idupCwd
  namexLoop sb parent bound name bound e mem path

end Programs

section Steps

variable {P : Type} {sb : Superblock} {p : P} {s0 s : Kernel P} {G B : Facts} {e : InodeId}
  {i : ℕ} {E : String → Prop}

/-- One more reference. -/
theorem Clean.gotInode {t t' : Fs} {x : InodeId} (h : Clean sb t G) (hgot : GotInode t t' x i)
    (hi : i < sb.ninodes) : G.Place x i ∧ Clean sb t' (G.got x i) := by
  cases hgot with
  | used hpos hinum hfs =>
    rw [h.ref] at hpos
    have hplace : G.inum x = i := (h.inum x hpos).1.symm.trans hinum
    have hgot := h.got_used hpos
    rw [hplace] at hgot
    exact ⟨.inl ⟨hpos, hplace⟩, by rw [hfs]; exact hgot⟩
  | free hzero hother hfs =>
    rw [h.ref] at hzero
    have hother' : ∀ y, 0 < G.ref y → G.inum y ≠ i := by
      intro y hy
      rw [← (h.inum y hy).1]
      rw [← h.ref] at hy
      exact hother y hy
    exact ⟨.inr ⟨hzero, hother'⟩, by rw [hfs]; exact h.got_new hzero hi hother'⟩

/-- Reading an allocated inode succeeds. -/
theorem Clean.iload_eq {t : Fs} (h : Clean sb t G) (he : 0 < G.ref e)
    (ht : (t.dinode sb (G.inum e)).type ≠ 0) : ∃ t', iload sb e t = .ok () t' ∧
      t'.blocks = t.blocks ∧ (t'.itable e).d = t.dinode sb (G.inum e) := by
  obtain ⟨hinum, -⟩ := h.inum e he
  cases hv : (t.itable e).valid with
  | true => exact ⟨t, iload_of_valid hv, rfl, (h.copy e he hv).1⟩
  | false =>
    refine ⟨t.setInode e { t.itable e with valid := true, d := t.dinode sb (G.inum e) }, ?_, rfl,
      ?_⟩
    · rw [iload_of_not_valid hv h.held, hinum, if_neg ht]
      rfl
    · exact congrArg Inode.d (update_self e _ t.itable)

/-- `ilock` of an allocated inode whose lock is free. -/
theorem Solo.ilock_returns (h : Solo sb s0 s G) (he : 0 < G.ref e) (hlock : s.lock e = none)
    (ht : (s.fs.dinode sb (G.inum e)).type ≠ 0) :
    Returns p E (RiscvKernel.ilock sb e) s fun d s' => d = s.fs.dinode sb (G.inum e) ∧
      s'.fs.blocks = s.fs.blocks ∧ s'.lock = update s.lock e (some p) := by
  obtain ⟨fs, hload, hblocks, hd⟩ := h.clean.iload_eq he ht
  have hpos : ¬ (s.fs.itable e).ref < 1 := by
    rw [h.clean.ref]
    omega
  have hrun : (RiscvKernel.ilock sb e).exec p s = .ok (fs.itable e).d
      { s with fs := fs, lock := update s.lock e (some p) } := by
    simp only [RiscvKernel.ilock, exec_step, if_neg hpos, hlock, hload]
  exact .of_eq hrun ⟨hd, hblocks, rfl⟩

/-- `iput` of an inode that has links or other references. -/
theorem Solo.iput_keep_returns (h : Solo sb s0 s G) (he : 0 < G.ref e)
    (hkeep : G.ref e = 1 → ∀ x, G.seen (G.inum e) = some x → x.nlink ≠ 0) :
    Returns p E (RiscvKernel.iput sb e) s fun _ s' => s'.fs.blocks = s.fs.blocks ∧
      s'.lock = s.lock := by
  have hnot : ¬ ((s.fs.itable e).ref = 1 ∧ (s.fs.itable e).valid = true ∧
      (s.fs.itable e).d.nlink = 0) := by
    rintro ⟨hone, hv, hzero⟩
    have hseen := (h.clean.loaded hv).seen_loaded he (Set.mem_insert _ _)
    exact hkeep ((h.clean.ref e).symm.trans hone) _ hseen hzero
  refine (iput_drops hnot).mono ?_
  rintro u s' ⟨hfs, hlock⟩
  exact ⟨by rw [hfs]; rfl, hlock⟩

variable [DecidableEq P]

/-- `iunlock` of a lock that the process holds. -/
theorem Solo.iunlock_returns (h : Solo sb s0 s G) (he : 0 < G.ref e) (hlock : s.lock e = some p) :
    Returns p E (RiscvKernel.iunlock e) s fun _ s' => s'.fs = s.fs ∧
      s'.lock = update s.lock e none := by
  have hsec : (if s.lock e = some p ∧ ¬ (s.fs.itable e).ref < 1 then
      .done () { s with lock := update s.lock e none } []
      else .panic "iunlock" : Result (Kernel P) Empty Unit Unit) =
      .done () { s with lock := update s.lock e none } [] :=
    if_pos ⟨hlock, by rw [h.clean.ref]; omega⟩
  exact Returns.of_done hsec ⟨rfl, rfl⟩

/-- `iunlockput` of such an inode. -/
theorem Solo.iunlockput_keep_returns (h : Solo sb s0 s G) (he : 0 < G.ref e)
    (hlock : s.lock e = some p)
    (hkeep : G.ref e = 1 → ∀ x, G.seen (G.inum e) = some x → x.nlink ≠ 0) :
    Returns p E (iunlockput sb e) s fun _ s' => s'.fs.blocks = s.fs.blocks ∧
      s'.lock = update s.lock e none := by
  refine ((h.iunlock_returns he hlock).and_ends h.iunlock).bind ?_
  rintro u s1 ⟨⟨hfs, hlock1⟩, h1⟩
  refine (h1.iput_keep_returns he hkeep).mono ?_
  rintro u s2 ⟨hblocks, hlock2⟩
  exact ⟨by rw [hblocks, hfs], hlock2.trans hlock1⟩

end Steps

/-! ## The target of a path -/

section Target

variable {sb : Superblock} {s : Fs} {i : ℕ} {n : Name} {ns : List Name}

/-- Where `namex` ends: at the inode that the names lead to, or at the directory that all but the
last of them lead to. -/
def Fs.target (s : Fs) (sb : Superblock) (parent : Bool) (i : ℕ) (names : List Name) : Option ℕ :=
  if parent then
    if names = [] then none
    else (s.resolve sb i names.dropLast).filter fun j => (s.dinode sb j).type = tDir
  else s.resolve sb i names

/-- The first name of a path. -/
theorem Fs.resolve_cons : s.resolve sb i (n :: ns) =
    (s.child sb i n).bind fun j => s.resolve sb j ns := List.foldlM_cons ..

/-- A path through a file leads nowhere. -/
theorem Fs.target_of_not_dir {parent : Bool} (hdir : (s.dinode sb i).type ≠ tDir) :
    s.target sb parent i (n :: ns) = none := by
  have hchild : ∀ m, s.child sb i m = none := fun m => if_neg hdir
  unfold Fs.target
  split
  · rw [if_neg (List.cons_ne_nil n ns)]
    cases ns with
    | nil => exact Option.filter_some_neg (by simpa using hdir)
    | cons m ns =>
      rw [List.dropLast_cons_cons, Fs.resolve_cons, hchild]
      rfl
  · rw [Fs.resolve_cons, hchild]
    rfl

/-- The parent is reached before the last name. -/
theorem Fs.target_last (hdir : (s.dinode sb i).type = tDir) : s.target sb true i [n] = some i := by
  unfold Fs.target
  rw [if_pos rfl, if_neg (List.cons_ne_nil n [])]
  exact Option.filter_some_pos (by simpa using hdir)

/-- One step of the walk. -/
theorem Fs.target_cons {parent : Bool} (hgo : ¬ (parent = true ∧ ns = [])) :
    s.target sb parent i (n :: ns) =
      (s.child sb i n).bind fun j => s.target sb parent j ns := by
  unfold Fs.target
  cases parent with
  | false => exact Fs.resolve_cons
  | true =>
    have hns : ns ≠ [] := fun hnil => hgo ⟨rfl, hnil⟩
    rw [if_pos rfl, if_neg (List.cons_ne_nil n ns), List.dropLast_cons_of_ne_nil hns,
      Fs.resolve_cons]
    cases s.child sb i n with
    | none => rfl
    | some j =>
      simp only [Option.bind_some]
      rw [if_pos trivial, if_neg hns]

end Target

/-! ## The walk -/

/-- A path in memory, and a buffer for names that does not overlap it. -/
structure PathAt (mem : Mem) (path name : ℕ) (cs : List UInt8) : Prop where
  /-- The bytes of the path. -/
  str : HoldsString mem path cs
  /-- It lies in the address space. -/
  fits : path + cs.length < 2 ^ 64
  /-- Its length is an `int`. -/
  short : cs.length < 2 ^ 31
  /-- So does the buffer. -/
  room : name + dirsiz ≤ 2 ^ 64
  /-- They do not overlap. -/
  apart : name + dirsiz ≤ path ∨ path + cs.length < name

section Walking

variable {P : Type} {sb : Superblock} {p : P} {s0 s : Kernel P} {B : Facts} {e : InodeId} {i : ℕ}

/-- Giving the lock back. -/
theorem update_none_of_free {lock : InodeId → Option P} (hlock : lock e = none) :
    update (update lock e (some p)) e none = lock := by
  rw [update_idem, ← hlock, update_eq_self]

/-- A walk has come to an inode: there is one more reference to it, and nothing else has changed. -/
structure Walk (sb : Superblock) (s0 : Kernel P) (B : Facts) (s : Kernel P) (e : InodeId)
    (i : ℕ) : Prop extends Solo sb s0 s (B.got e i) where
  /-- The inode in memory. -/
  place : B.Place e i
  /-- Its number. -/
  lt : i < sb.ninodes
  /-- The disk is as before. -/
  blocks : s.fs.blocks = s0.fs.blocks
  /-- The locks are as before. -/
  lock : s.lock = s0.lock

/-- `iget` can fail: at most one entry of the inode table was free. -/
def Crowded (B : Facts) (msg : String) : Prop :=
  msg = "iget: no inodes" ∧ ∀ x y, B.ref x = 0 → B.ref y = 0 → x = y

/-- How a walk ends that should find an inode or nothing. -/
def Resolved (sb : Superblock) (s0 : Kernel P) (B : Facts) (found : Option ℕ)
    (r : Option InodeId) (s : Kernel P) : Prop :=
  match found with
  | none => r = none ∧ Solo sb s0 s B ∧ s.fs.blocks = s0.fs.blocks ∧ s.lock = s0.lock
  | some j => ∃ e, r = some e ∧ Walk sb s0 B s e j

/-- A directory that has been read. -/
theorem Clean.atDir {t : Fs} {G : Facts} (h : Clean sb t G) (he : 0 < G.ref e) (hl : e ∈ G.loaded)
    (hdir : (t.dinode sb (G.inum e)).type = tDir)
    (hwhole : direntSize ∣ (t.dinode sb (G.inum e)).size.toNat) :
    AtDir sb (t.dinode sb) (G.inum e) e t := by
  obtain ⟨hinum, hlt⟩ := h.inum e he
  obtain ⟨hcopy, htype⟩ := h.copy_of_loaded he hl
  exact ⟨h.owned, hcopy.symm, hinum, hlt, h.held, hdir, h.solid _ hlt htype, hwhole⟩

/-- The lookup of a walk fails only if the table was crowded. -/
theorem Crowded.of_full {t : Fs} {G : Facts} {msg : String} (h : Clean sb t G)
    (href : ∀ x, x ≠ e → G.ref x = B.ref x) (hfull : TableFull t msg) : Crowded B msg := by
  obtain ⟨hmsg, hfull⟩ := hfull
  have hne : ∀ x, B.ref x = 0 → x = e := by
    intro x hx
    by_contra hxe
    apply hfull x
    rw [h.ref, href x hxe, hx]
  exact ⟨hmsg, fun x y hx hy => (hne x hx).trans (hne y hy).symm⟩

/-- A walk has locked the inode it has come to. -/
structure Inside (sb : Superblock) (s0 : Kernel P) (B : Facts) (p : P) (s : Kernel P)
    (e : InodeId) (i : ℕ) : Prop extends Solo sb s0 s ((B.got e i).load e) where
  /-- The inode in memory. -/
  place : B.Place e i
  /-- Its number. -/
  lt : i < sb.ninodes
  /-- The disk is as before. -/
  blocks : s.fs.blocks = s0.fs.blocks
  /-- The process holds the lock. -/
  lock : s.lock = update s0.lock e (some p)

variable {E : String → Prop}

/-- A walk locks the inode it has come to. -/
theorem Walk.ilock (h : Walk sb s0 B s e i) (hlock : s0.lock e = none)
    (ht : (s0.fs.dinode sb i).type ≠ 0) : Returns p E (RiscvKernel.ilock sb e) s fun d s' =>
      d = s0.fs.dinode sb i ∧ Inside sb s0 B p s' e i := by
  have hinum : (B.got e i).inum e = i := Facts.got_inum_self
  have hd : s.fs.dinode sb = s0.fs.dinode sb := Fs.dinode_congr h.blocks
  have hpos := h.place.got_pos
  refine ((h.toSolo.ilock_returns hpos (by rw [h.lock, hlock]) ?_).and_ends
    (h.toSolo.ilock hpos)).mono ?_
  · rwa [hinum, hd]
  · rintro d s' ⟨⟨rfl, hblocks, hlock'⟩, hsolo, -⟩
    refine ⟨by rw [hinum, hd], hsolo, h.place, h.lt, hblocks.trans h.blocks, ?_⟩
    rw [hlock', h.lock]

/-- A walk that drops its reference has changed nothing. -/
theorem Walk.drop (h : Walk sb s0 B s e i) (hno : B.NoOrphans) :
    Returns p E (iput sb e) s fun _ s' => Resolved sb s0 B none none s' := by
  have hself : (B.got e i).ref e = B.ref e + 1 := Facts.got_ref_self
  have hkeep := hno.keep (G := B.got e i) h.place rfl Facts.got_inum_self (by omega)
  refine ((h.toSolo.iput_keep_returns h.place.got_pos hkeep).and_ends
    (h.toSolo.iput_keep h.place.got_pos hkeep)).mono ?_
  rintro u s' ⟨⟨hblocks, hlock⟩, hsolo⟩
  exact ⟨rfl, hsolo.implies h.place.put_got, hblocks.trans h.blocks, hlock.trans h.lock⟩

variable [DecidableEq P]

/-- A walk unlocks it again. -/
theorem Inside.iunlock (h : Inside sb s0 B p s e i) (hlock : s0.lock e = none) :
    Returns p E (RiscvKernel.iunlock e) s fun _ s' => Walk sb s0 B s' e i := by
  have hmine : s.lock e = some p := by
    rw [h.lock]
    exact update_self e _ s0.lock
  refine ((h.toSolo.iunlock_returns h.place.got_pos hmine).and_ends h.toSolo.iunlock).mono ?_
  rintro u s' ⟨⟨hfs, hlock'⟩, hsolo⟩
  refine ⟨hsolo.implies Facts.load_implies, h.place, h.lt, by rw [hfs, h.blocks], ?_⟩
  rw [hlock', h.lock, update_none_of_free hlock]

/-- The walk ends here. -/
theorem Inside.drop (h : Inside sb s0 B p s e i) (hno : B.NoOrphans) (hlock : s0.lock e = none) :
    Returns p E (iunlockput sb e) s fun _ s' => Resolved sb s0 B none none s' := by
  have hmine : s.lock e = some p := by
    rw [h.lock]
    exact update_self e _ s0.lock
  have hself : (B.got e i).ref e = B.ref e + 1 := Facts.got_ref_self
  have hkeep := hno.keep (G := (B.got e i).load e) h.place rfl Facts.got_inum_self
    (by change _ < (B.got e i).ref e; omega)
  refine ((h.toSolo.iunlockput_keep_returns h.place.got_pos hmine hkeep).and_ends
    (h.toSolo.drop hno h.place)).mono ?_
  rintro u s' ⟨⟨hblocks, hlock'⟩, hsolo⟩
  refine ⟨rfl, hsolo, hblocks.trans h.blocks, ?_⟩
  rw [hlock', h.lock, update_none_of_free hlock]

/-- A walk that has looked a name up holds two references. -/
structure Between (sb : Superblock) (s0 : Kernel P) (B : Facts) (p : P) (s : Kernel P)
    (e : InodeId) (i : ℕ) (n : InodeId) (j : ℕ) : Prop
    extends Solo sb s0 s (((B.got e i).load e).got n j) where
  /-- The directory in memory. -/
  place : B.Place e i
  /-- The next inode in memory. -/
  next : (B.got e i).Place n j
  /-- Its number. -/
  lt : j < sb.ninodes
  /-- The disk is as before. -/
  blocks : s.fs.blocks = s0.fs.blocks
  /-- The process holds the lock of the directory. -/
  lock : s.lock = update s0.lock e (some p)

/-- The walk goes on. -/
theorem Between.advance {n : InodeId} {j : ℕ} (h : Between sb s0 B p s e i n j)
    (hno : B.NoOrphans) (hlock : s0.lock e = none) :
    Returns p E (iunlockput sb e) s fun _ s' => Walk sb s0 B s' n j := by
  have hmine : s.lock e = some p := by
    rw [h.lock]
    exact update_self e _ s0.lock
  have hself : (B.got e i).ref e = B.ref e + 1 := Facts.got_ref_self
  have hpos := h.place.got_pos
  obtain ⟨hpos', hinum⟩ := h.next.got_inum hpos
  have hle : (B.got e i).ref e ≤ ((B.got e i).got n j).ref e := Facts.le_got_ref e
  have hkeep := hno.keep (G := ((B.got e i).load e).got n j) h.place rfl
    (hinum.trans Facts.got_inum_self) (by change _ < ((B.got e i).got n j).ref e; omega)
  refine ((h.toSolo.iunlockput_keep_returns hpos' hmine hkeep).and_ends
    (h.toSolo.advance hno h.place h.next)).mono ?_
  rintro u s' ⟨⟨hblocks, hlock'⟩, hsolo⟩
  refine ⟨hsolo, h.place.of_got h.next, h.lt, hblocks.trans h.blocks, ?_⟩
  rw [hlock', h.lock, update_none_of_free hlock]

omit [DecidableEq P] in
/-- What a walk finds in a directory. -/
theorem Inside.dirlookupAt (h : Inside sb s0 B p s e i) (htree : Tree sb s0.fs)
    (hdir : (s0.fs.dinode sb i).type = tDir) (name : Mem) :
    Returns p (Crowded B) (RiscvKernel.dirlookupAt sb e name) s fun r s' =>
      match s0.fs.child sb i (nameOf name) with
      | none => r = none ∧ Inside sb s0 B p s' e i
      | some j => (s0.fs.dinode sb j).type ≠ 0 ∧
          ∃ n off, r = some (n, off) ∧ Between sb s0 B p s' e i n j := by
  have hinum : (B.got e i).inum e = i := Facts.got_inum_self
  have hd : s.fs.dinode sb = s0.fs.dinode sb := Fs.dinode_congr h.blocks
  have hat : AtDir sb (s0.fs.dinode sb) i e s.fs := by
    have hwhole := htree.whole i h.lt hdir
    rw [← hd, ← hinum] at hdir hwhole ⊢
    exact h.clean.atDir h.place.got_pos (Set.mem_insert _ _) hdir hwhole
  have hcrowded : ∀ msg, TableFull s.fs msg → Crowded B msg := fun msg =>
    Crowded.of_full h.clean fun x hx => Facts.got_ref_ne (i := i) hx
  refine .imp (hat.dirlookupAt_returns name) hcrowded ?_
  rintro r s' ⟨hlooked, hsame, hlock⟩
  unfold Fs.child
  rw [if_pos hdir, ← h.blocks]
  unfold Looked at hlooked
  cases hfind : dirFind sb (s0.fs.dinode sb) s.fs.blocks i (nameOf name) with
  | none =>
    rw [hfind] at hlooked
    obtain ⟨hr, hfs⟩ := hlooked
    have hclean : Clean sb s'.fs ((B.got e i).load e) := by rw [hfs]; exact h.clean
    exact ⟨hr, h.toSolo.next hsame hclean, h.place, h.lt, by rw [hfs, h.blocks],
      hlock.trans h.lock⟩
  | some found =>
    obtain ⟨j, off⟩ := found
    rw [hfind] at hlooked
    obtain ⟨n, hr, hgot⟩ := hlooked
    obtain ⟨k, -, hentry, -⟩ := dirFind_eq_some.1 hfind
    have hlt : j < sb.ninodes := by
      rw [← hd] at hentry hdir
      exact h.clean.names i h.lt hdir k _ hentry
    rw [h.blocks] at hentry
    have htj := htree.names i h.lt hdir k _ hentry
    obtain ⟨hplace, hclean⟩ := h.clean.gotInode hgot hlt
    exact ⟨htj, n, off, hr, h.toSolo.next hsame hclean, h.place, hplace, hlt,
      hgot.blocks.trans h.blocks,
      hlock.trans h.lock⟩

/-- `skipelem` on the path of a walk. -/
theorem PathAt.skipelemAt {mem : Mem} {path name bound : ℕ} {cs rest : List UInt8} {elem : Name}
    (h : PathAt mem path name cs) (hbound : cs.length < bound)
    (hskip : skipelem cs = some (elem, rest)) :
    ∃ path' mem' w, RiscvKernel.skipelemAt bound mem path name = some (path', mem') ∧
      path' ≠ 0 ∧ rest.length < cs.length ∧ PathAt mem' path' name rest ∧
      nameOf (fun j => mem' (name + j)) = w.take dirsiz ∧
      components cs = w :: components rest ∧ HoldsElem mem' name w ∧
      (mem' path' = 0 ↔ components rest = []) := by
  have hone := skipelemAt_eq h.str h.fits h.short h.room h.apart hbound
  rw [hskip] at hone
  obtain ⟨path', mem', heq, hlt, hsum, hrest, hname, ⟨w, hcomp, helem, -⟩, -⟩ := hone
  obtain ⟨w', hcomp', rfl, hnil⟩ := skipelem_eq_some hskip
  rw [hcomp] at hcomp'
  cases hcomp'
  have hapart := h.apart
  have hfits := h.fits
  have hshort := h.short
  exact ⟨path', mem', w, heq, by omega, by omega, ⟨hrest, by omega, by omega, h.room, by omega⟩,
    hname, hcomp, helem, hrest.nul_iff.trans hnil⟩

/-- A walk from an inode on. -/
theorem Walk.namexLoop {parent : Bool} {bound name fuel path : ℕ} {mem : Mem} {cs : List UInt8}
    (h : Walk sb s0 B s e i) (hno : B.NoOrphans) (htree : Tree sb s0.fs)
    (hlock : ∀ x, s0.lock x = none) (ht : (s0.fs.dinode sb i).type ≠ 0)
    (hpath : PathAt mem path name cs) (hbound : cs.length < bound) (hfuel : cs.length < fuel) :
    Returns p (Crowded B) (RiscvKernel.namexLoop sb parent bound name fuel e mem path) s
      fun r s' => Resolved sb s0 B (s0.fs.target sb parent i (pathNames cs)) r.1 s' ∧
        (parent = true → r.1.isSome → ∀ w, (components cs).getLast? = some w →
          HoldsElem r.2 name w) := by
  induction fuel generalizing s e i path mem cs with
  | zero => cases hfuel
  | succ fuel ih =>
    rw [RiscvKernel.namexLoop]
    unfold pathNames
    cases hskip : skipelem cs with
    | none =>
      have hone := skipelemAt_eq hpath.str hpath.fits hpath.short hpath.room hpath.apart hbound
      rw [hskip] at hone
      rw [hone, skipelem_eq_none hskip]
      dsimp only
      rw [if_pos rfl]
      cases parent with
      | false =>
        rw [if_neg Bool.false_ne_true]
        exact Returns.ret ⟨⟨e, rfl, h⟩, fun hp => by cases hp⟩
      | true =>
        rw [if_pos rfl]
        refine (h.drop hno).bind fun u s1 h1 => Returns.ret ⟨h1, ?_⟩
        intro _ hsome
        cases hsome
    | some x =>
      obtain ⟨path', mem', w, hone, hne, hlt, hpath', hname, hcomp, helem, hnul⟩ :=
        hpath.skipelemAt hbound hskip
      rw [hone, hcomp, List.map_cons]
      dsimp only
      rw [if_neg hne]
      refine (h.ilock (hlock e) ht).bind ?_
      rintro d s1 ⟨rfl, h1⟩
      by_cases hdir : (s0.fs.dinode sb i).type = tDir
      · rw [if_neg (not_not.2 hdir)]
        by_cases hlast : parent = true ∧ mem' path' = 0
        · obtain ⟨rfl, hzero⟩ := hlast
          rw [if_pos ⟨rfl, hzero⟩, hnul.1 hzero, List.map_nil, Fs.target_last hdir]
          refine (h1.iunlock (hlock e)).bind fun u s2 h2 => Returns.ret ⟨⟨e, rfl, h2⟩, ?_⟩
          intro _ _ v hv
          cases hv
          exact helem
        · rw [hnul] at hlast
          rw [if_neg (by rwa [hnul]), Fs.target_cons (by rwa [List.map_eq_nil_iff]), ← hname]
          refine (h1.dirlookupAt htree hdir _).bind ?_
          intro r s2 hr
          cases hchild : s0.fs.child sb i (nameOf fun j => mem' (name + j)) with
          | none =>
            rw [hchild] at hr
            obtain ⟨rfl, h2⟩ := hr
            refine (h2.drop hno (hlock e)).bind fun u s3 h3 => Returns.ret ⟨h3, ?_⟩
            intro _ hsome
            cases hsome
          | some j =>
            rw [hchild] at hr
            obtain ⟨htj, n, off, rfl, h2⟩ := hr
            refine (h2.advance hno (hlock e)).bind fun u s3 h3 => ?_
            refine (ih h3 htj hpath' (by omega) (by omega)).mono ?_
            rintro ⟨r, m⟩ s4 ⟨hres, hlast'⟩
            refine ⟨hres, fun hp hsome v hv => hlast' hp hsome v ?_⟩
            rwa [List.getLast?_cons_of_ne_nil fun hnil => hlast ⟨hp, hnil⟩] at hv
      · rw [if_pos hdir, Fs.target_of_not_dir hdir]
        refine (h1.drop hno (hlock e)).bind fun u s2 h2 => Returns.ret ⟨h2, ?_⟩
        intro _ hsome
        cases hsome

/-- `namex` starts at the root or at the current directory. -/
theorem namexAt_returns {parent : Bool} {bound name path : ℕ} {mem : Mem} {cs : List UInt8}
    {c : InodeId} (h : Clean sb s.fs B) (hno : B.NoOrphans) (htree : Tree sb s.fs)
    (hlock : ∀ x, s.lock x = none) (hcwd : s.cwd p = some c) (hc : 0 < B.ref c)
    (htype : (s.fs.dinode sb (B.inum c)).type ≠ 0) (hpath : PathAt mem path name cs)
    (hbound : cs.length < bound) :
    Returns p (Crowded B) (namexAt sb parent bound mem path name) s fun r s' =>
      Resolved sb s B (s.fs.target sb parent
          (if cs.head? = some slash then rootino else B.inum c) (pathNames cs)) r.1 s' ∧
        (parent = true → r.1.isSome → ∀ w, (components cs).getLast? = some w →
          HoldsElem r.2 name w) := by
  have hsolo : Solo sb s s B := ⟨rfl, h⟩
  have hhead : mem path = slash ↔ cs.head? = some slash := by
    have hstr := hpath.str
    cases cs with
    | nil =>
      rw [show mem path = 0 from hstr]
      decide
    | cons b cs => rw [hstr.2.1, List.head?_cons, Option.some_inj]
  unfold namexAt
  by_cases hslash : cs.head? = some slash
  · rw [if_pos (hhead.2 hslash), if_pos hslash]
    have hfull : ∀ msg, TableFull s.fs msg → Crowded B msg := fun msg =>
      Crowded.of_full (e := c) h fun x _ => rfl
    refine Returns.bind (.imp iget_returns hfull fun x s' hr => hr) ?_
    rintro e s1 ⟨hgot, hsame, hlock'⟩
    obtain ⟨hplace, hclean⟩ := h.gotInode hgot sb.root_lt
    have hwalk : Walk sb s B s1 e rootino :=
      ⟨hsolo.next hsame hclean, hplace, sb.root_lt, hgot.blocks, hlock'⟩
    exact hwalk.namexLoop hno htree hlock htree.root hpath hbound hbound
  · rw [if_neg (mt hhead.1 hslash), if_neg hslash]
    have hrun : (idupCwd : KProg P InodeId).exec p s = .ok c
        (s.setInode c { s.fs.itable c with ref := (s.fs.itable c).ref + 1 }) := by
      simp only [idupCwd, exec_step, hcwd]
    have hgot := GotInode.used (by rw [h.ref]; exact hc) (h.inum c hc).1 rfl
    obtain ⟨hplace, hclean⟩ := h.gotInode hgot (h.inum c hc).2
    have hdup : Returns p (Crowded B) idupCwd s fun e s' => e = c ∧ Walk sb s B s' c (B.inum c) :=
      .of_eq hrun ⟨rfl, hsolo.next rfl hclean, hplace, (h.inum c hc).2, rfl,
        rfl⟩
    refine hdup.bind ?_
    rintro e s1 ⟨rfl, hwalk⟩
    exact hwalk.namexLoop hno htree hlock htype hpath hbound hbound

/-- The calls of `skipelem` produce the components of a path and end. On a tree that does not
change, `namei` looks them up one after the other, and `nameiparent` all but the last, which it
leaves in `name`. -/
theorem path_resolution (sb : Superblock) (p : P) (s : Kernel P) (B : Facts) (c : InodeId)
    (h : Clean sb s.fs B) (hno : B.NoOrphans) (htree : Tree sb s.fs)
    (hlock : ∀ x, s.lock x = none) (hcwd : s.cwd p = some c) (hc : 0 < B.ref c)
    (htype : (s.fs.dinode sb (B.inum c)).type ≠ 0) (mem : Mem) (path name : ℕ) (cs : List UInt8)
    (hpath : PathAt mem path name cs) (bound : ℕ) (hbound : cs.length < bound) :
    (∃ l, skipelems bound name bound mem path = some l ∧
      List.Forall₂ (fun x w => HoldsElem x.2 name w ∧
        ((∃ j < dirsiz, x.2 (name + j) = 0) ↔ w.length < dirsiz)) l (components cs) ∧
      ∀ l1 q m l2, l = l1 ++ (q, m) :: l2 → (m q = 0 ↔ l2 = [])) ∧
    Returns p (Crowded B) (namexAt sb false bound mem path name) s (fun r s' =>
      Resolved sb s B (s.fs.resolve sb (if cs.head? = some slash then rootino else B.inum c)
        (pathNames cs)) r.1 s') ∧
    Returns p (Crowded B) (namexAt sb true bound mem path name) s fun r s' =>
      (components cs = [] → Resolved sb s B none r.1 s') ∧
      ∀ ws w, components cs = ws ++ [w] →
        Resolved sb s B ((s.fs.resolve sb
            (if cs.head? = some slash then rootino else B.inum c)
            (ws.map (List.take dirsiz))).filter fun j => (s.fs.dinode sb j).type = tDir) r.1 s' ∧
          (r.1.isSome → HoldsElem r.2 name w) := by
  refine ⟨?_, ?_, ?_⟩
  · exact skipelems_eq hpath.str hpath.fits hpath.short hpath.room hpath.apart hbound hbound
  · refine (namexAt_returns h hno htree hlock hcwd hc htype hpath hbound).mono ?_
    rintro r s' ⟨hres, -⟩
    exact hres
  · refine (namexAt_returns h hno htree hlock hcwd hc htype hpath hbound).mono ?_
    rintro r s' ⟨hres, hlast⟩
    unfold Fs.target pathNames at hres
    rw [if_pos rfl] at hres
    constructor
    · intro hnil
      rwa [hnil, List.map_nil, if_pos rfl] at hres
    · intro ws w hws
      refine ⟨?_, fun hsome => hlast rfl hsome w (by rw [hws]; simp)⟩
      rw [hws, List.map_append, List.map_singleton, List.dropLast_concat, if_neg (by simp)] at hres
      exact hres

end Walking

/-! ## The root of a new file system -/

/-- What can be seen of the new file system with the root directory in memory. -/
def rootFacts : Facts where
  seen := fun i => if i = rootino then freshFs.look mkfsSb rootino else none
  ref := fun e => if e = 0 then 1 else 0
  inum := fun _ => rootino
  loaded := {0}
  log := ∅

theorem freshFs_type {i : ℕ} (hi : i < mkfsSb.ninodes) :
    (freshFs.dinode mkfsSb i).type ≠ 0 ↔ i = rootino := by
  rw [freshFs_dinode hi]
  by_cases hroot : i = rootino
  · rw [if_pos hroot]
    exact ⟨fun _ => hroot, fun _ => by decide⟩
  · rw [if_neg hroot]
    exact ⟨fun htype => absurd rfl htype, fun h => absurd h hroot⟩

theorem freshFs_dir {i : ℕ} (hi : i < mkfsSb.ninodes)
    (hdir : (freshFs.dinode mkfsSb i).type = tDir) : i = rootino := by
  rw [← freshFs_type hi, hdir]
  decide

theorem freshFs_entry_inum {k : ℕ} {de : Dirent}
    (h : entry mkfsSb (freshFs.dinode mkfsSb) freshFs.blocks rootino k = some de) :
    de.inum = rootino := by
  rw [freshFs_entry] at h
  split at h
  · cases h
    rfl
  · split at h
    · cases h
      rfl
    · cases h

theorem rootFacts_ref {e : InodeId} (he : 0 < rootFacts.ref e) : e = 0 := by
  by_contra hne
  simp [rootFacts, hne] at he

theorem rootFacts_seen {i : ℕ} {x : Seen} (hx : rootFacts.seen i = some x) : i = rootino := by
  by_contra hne
  simp [rootFacts, hne] at hx

/-- The new file system is well formed. -/
theorem rootKernel_clean : Clean mkfsSb rootKernel.fs rootFacts where
  owned := freshFs_owned
  held := rfl
  solid := by
    intro i hi htype
    rw [(freshFs_type hi).1 htype]
    exact freshFs_solid
  names := by
    intro i hi hdir k de hentry
    obtain rfl := freshFs_dir hi hdir
    rw [freshFs_entry_inum hentry]
    decide
  seen := by
    intro i hi
    change freshFs.look mkfsSb i = if i = rootino then _ else _
    split
    · next hroot => rw [hroot]
    · next hroot => exact Fs.look_eq_none.2 (not_not.1 (mt (freshFs_type hi).1 hroot))
  ref := by decide
  nonneg := by decide
  inum := by
    intro e he
    obtain rfl := rootFacts_ref he
    exact ⟨rfl, by decide⟩
  unique := by
    intro e e' he he' _
    rw [rootFacts_ref he, rootFacts_ref he']
  copy := by
    intro e he _
    obtain rfl := rootFacts_ref he
    have hroot : freshFs.dinode mkfsSb rootino = rootDinode := by
      rw [freshFs_dinode (by decide), if_pos rfl]
    exact ⟨hroot.symm, (freshFs_type (by decide)).2 rfl⟩
  valid := by
    intro e _ he
    obtain rfl := rootFacts_ref he
    rfl
  logged := by
    intro b hb
    cases hb

theorem rootFacts_noOrphans : rootFacts.NoOrphans := by
  intro i x hx _
  exact ⟨0, by decide, (rootFacts_seen hx).symm⟩

theorem rootKernel_tree : Tree mkfsSb rootKernel.fs where
  root := (freshFs_type (by decide)).2 rfl
  whole := by
    intro i hi hdir
    obtain rfl := freshFs_dir hi hdir
    exact rootLoaded_atDir.whole
  names := by
    intro i hi hdir k de hentry
    obtain rfl := freshFs_dir hi hdir
    rw [freshFs_entry_inum hentry]
    exact (freshFs_type (by decide)).2 rfl

/-- A memory with the path `/.` at 100. -/
def dotPath : Mem := fun a => if a = 100 then slash else if a = 101 then 46 else 0

/-- The path `/.` leads to the root. -/
theorem path_resolution_root : ∃ (e : InodeId) (mem : Mem) (s' : Kernel Unit),
    (namexAt mkfsSb false 3 dotPath 100 200).exec () rootKernel = .ok (some e, mem) s' ∧
      (s'.fs.itable e).inum = rootino := by
  have hpath : PathAt dotPath 100 200 [slash, 46] := by
    refine ⟨?_, by decide, by decide, by decide, by decide⟩
    exact ⟨by decide, rfl, by decide, rfl, rfl⟩
  obtain ⟨-, hnamei, -⟩ := path_resolution mkfsSb () rootKernel rootFacts 0 rootKernel_clean
    rootFacts_noOrphans rootKernel_tree (fun _ => rfl) rfl (by decide)
    ((freshFs_type (by decide)).2 rfl) dotPath 100 200 [slash, 46] hpath 3 (by decide)
  have hfind : dirFind mkfsSb (freshFs.dinode mkfsSb) freshFs.blocks rootino dot =
      some (rootino, 0) := by
    rw [dirFind_eq_some]
    refine ⟨0, rfl, by rw [freshFs_entry]; rfl, fun l hl => ?_⟩
    cases hl
  have hresolve : rootKernel.fs.resolve mkfsSb rootino (pathNames [slash, 46]) =
      some rootino := by
    have hchild : rootKernel.fs.child mkfsSb rootino dot = some rootino := by
      refine (if_pos ?_).trans (congrArg (Option.map Prod.fst) hfind)
      exact rootLoaded_atDir.dir
    rw [show pathNames [slash, 46] = [dot] by decide, Fs.resolve_cons, hchild]
    rfl
  rcases Seq.Runs.cases hnamei with ⟨⟨r, mem⟩, s', hok, hres⟩ | ⟨msg, s', -, -, hcrowded⟩
  · rw [if_pos List.head?_cons, hresolve] at hres
    obtain ⟨e, rfl, hwalk⟩ := hres
    refine ⟨e, mem, s', hok, ?_⟩
    rw [(hwalk.clean.inum e hwalk.place.got_pos).1]
    exact Facts.got_inum_self
  · exact absurd (hcrowded 1 2 rfl rfl) (by decide)

end RiscvKernel
