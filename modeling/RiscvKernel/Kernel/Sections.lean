import RiscvKernel.Kernel.Seen
import RiscvKernel.Fs.Trunc

/-!
# The sections that work on one inode

What `ilock`, `ialloc`, `iput`, `dirlookup`, `dirlink` and the updates of a link count do to
a clean file system.
-/

namespace RiscvKernel

open Threads Function
open Threads.Seq (Runs After bind_apply ok_bind)

/-! ## Records -/

section Record

variable {sb : Superblock} {s : Fs} {e : InodeId} {i : ℕ}

/-- `ilock` of an inode that has been read. -/
theorem iload_of_valid (hv : (s.itable e).valid = true) : iload sb e s = .ok () s := by
  simp [iload, hv]

/-- `ilock` of an inode that has not been read. -/
theorem iload_of_not_valid (hv : (s.itable e).valid = false) (hheld : s.held = []) :
    iload sb e s = (if (s.dinode sb (s.itable e).inum).type = 0 then Seq.panic "ilock: no type"
      else pure ()) (s.setInode e { s.itable e with
        valid := true, d := s.dinode sb (s.itable e).inum }) := by
  have hread := @fsRead_eq s (sb.iblock (s.itable e).inum) (by simp [hheld])
  simp only [iload, bind_apply, Seq.gets_apply, ok_bind, hv, hread, fsRelse,
    Seq.modify_apply, Fs.release_unchanged, Fs.dinode, Bool.false_eq_true, if_false]
  rfl

/-- A round of `ialloc` on an inode in use. -/
theorem iallocAt_of_used {type : BitVec 16} (hheld : s.held = [])
    (ht : (s.dinode sb i).type ≠ 0) : iallocAt sb type i s = .ok false s := by
  have hread := @fsRead_eq s (sb.iblock i) (by simp [hheld])
  unfold Fs.dinode at ht
  simp only [iallocAt, bind_apply, hread, ok_bind, if_neg ht, fsRelse, Seq.modify_apply,
    Fs.release_unchanged, Seq.pure_apply]

/-- A round of `ialloc` on a free inode. -/
theorem iallocAt_of_free {type : BitVec 16} (hheld : s.held = [])
    (ht : (s.dinode sb i).type = 0) : iallocAt sb type i s =
      .ok true (s.write (sb.iblock i)
        ((s.blocks (sb.iblock i)).setDinode (i % ipb) { Dinode.zero with type := type })) := by
  have hread := @fsRead_eq s (sb.iblock i) (by simp [hheld])
  unfold Fs.dinode at ht
  simp only [iallocAt, bind_apply, hread, ok_bind, if_pos ht, fsLog, fsRelse,
    Seq.modify_apply, Bp.modify, Fs.release_logged, Seq.pure_apply]

/-- The records after one has been stored. -/
theorem dinode_write_eq (d : Dinode) :
    (s.write (sb.iblock i) ((s.blocks (sb.iblock i)).setDinode (i % ipb) d)).dinode sb =
      update (s.dinode sb) i d := funext (dinode_write d)

/-- Storing a record for an inode that has no blocks, before and after. -/
theorem Owned.replaced_write {d : Dinode} (h : Owned sb ∅ (s.dinode sb) s.blocks)
    (hheld : s.held = []) (hi : i < sb.ninodes)
    (hold : ∀ l, slotOf sb (s.dinode sb) s.blocks i l = 0)
    (hnew : d.type = 0 ∨ ∀ k, d.addr k = 0) :
    Replaced sb i s
      (s.write (sb.iblock i) ((s.blocks (sb.iblock i)).setDinode (i % ipb) d)) := by
  generalize hb : (s.blocks (sb.iblock i)).setDinode (i % ipb) d = b
  have hrec : (s.write (sb.iblock i) b).dinode sb = update (s.dinode sb) i d := by
    rw [← hb]
    exact dinode_write_eq d
  have hne : ∀ j l, j ≠ i →
      slotOf sb (update (s.dinode sb) i d) (update s.blocks (sb.iblock i) b) j l =
        slotOf sb (s.dinode sb) (update s.blocks (sb.iblock i) b) j l := by
    intro j l hj
    unfold slotOf
    rw [update_of_ne hj]
  have hslots : ∀ j l,
      slotOf sb (update (s.dinode sb) i d) (update s.blocks (sb.iblock i) b) j l =
        slotOf sb (s.dinode sb) s.blocks j l := by
    intro j l
    by_cases hj : j = i
    · rw [hj, hold]
      rcases hnew with ht | haddr
      · unfold slotOf
        rw [update_self, if_neg fun hcond => hcond.2 ht]
      · exact slotOf_of_addr_zero haddr l
    · rw [hne j l hj, slotOf_iupdate h hi]
  constructor
  · rw [hrec]
    exact h.of_slots hslots fun _ hbit =>
      usedBit_update hbit (.inl (Superblock.iblock_lt_bmapstart hi)) _
  · exact hheld
  · intro j _ hj
    rw [hrec, update_of_ne hj]
  · intro j l _
    rw [hrec]
    exact hslots j l
  · intro j l hj _
    rw [hrec, ← dataAt_iupdate h hi b j l]
    unfold dataAt
    rw [Fs.write_blocks, hne j l hj]

/-- The part of `iput` that frees an inode returns, with the record free. -/
theorem ifree_runs (h : Owned sb ∅ (s.dinode sb) s.blocks) (hheld : s.held = [])
    (hinum : (s.itable e).inum = i) (hi : i < sb.ninodes) (hV : s.dinode sb i = (s.itable e).d)
    (ht : (s.dinode sb i).type ≠ 0) :
    Runs (fun _ => False) (ifree sb e) s fun _ s' => Replaced sb i s s' ∧
      (s'.dinode sb i).type = 0 ∧ Logs sb {sb.iblock i} s s' ∧
      ∃ d, s'.itable = update s.itable e { s.itable e with valid := false, d := d } := by
  unfold ifree
  refine (itrunc_runs ⟨h, hV, hi, ht, hheld⟩ hinum).eq_ok.bind ?_
  rintro u s1 ⟨⟨-, d, hc, -, haddr⟩, hrun⟩
  have hlogs := itrunc_after h hV hi ht _ _ hrun
  have hr := hc.replaced hheld
  refine .modify_bind ?_
  generalize hd2 : ({ (s1.itable e).d with type := 0 } : Dinode) = d2
  have htype : d2.type = 0 := by rw [← hd2]
  have hinum1 : (s1.itable e).inum = i := by rw [hc.itable, update_self, hinum]
  have hself : (s1.setD e d2).itable e = { s1.itable e with d := d2 } := by
    simp [Fs.setD, Fs.setInode]
  have hheld2 : (s1.setD e d2).held = [] := hr.held
  refine .of_eq_bind (iupdate_eq hheld2) (.modify ?_)
  rw [hself, hinum1]
  have hslots : ∀ l, slotOf sb (s1.dinode sb) s1.blocks i l = 0 := by
    intro l
    rw [slotOf_congr_records hc.records]
    exact slotOf_of_addr_zero haddr l
  have hr2 := hr.owned.replaced_write hr.held hi hslots (d := d2) (.inl htype)
  have hfree : ∀ t : Fs, t.blocks = (s1.write (sb.iblock i)
      ((s1.blocks (sb.iblock i)).setDinode (i % ipb) d2)).blocks → (t.dinode sb i).type = 0 := by
    intro t hblocks
    rw [Fs.dinode_congr hblocks, dinode_write, update_self]
    exact htype
  refine ⟨(hr.trans hr2).congr rfl rfl, ?_, ?_, ?_⟩
  · exact hfree _ rfl
  · rw [hinum] at hlogs
    refine hlogs.same fun b hb => ?_
    rcases List.mem_cons.mp hb with rfl | hb
    · exact .inr (.inr rfl)
    · exact .inl hb
  · refine ⟨d2, ?_⟩
    simp [Fs.setD, Fs.setInode, hc.itable]

end Record

/-! ## Directories -/

section Directory

variable {sb : Superblock} {V : ℕ → Dinode} {s : Fs} {e : InodeId} {i : ℕ}

/-- The inode number of an entry is stored in two bytes. -/
theorem Dirent.inum_ofMem_mem_le (de : Dirent) : (Dirent.ofMem de.mem).inum ≤ de.inum := by
  have heq : Bytes.num de.mem 0 2 = Bytes.le (Bytes.leByte de.inum) 2 := by
    refine Bytes.le_congr fun k hk => ?_
    simp [Dirent.mem, hk]
  change Bytes.num de.mem 0 2 ≤ de.inum
  rw [heq, Bytes.le_leByte]
  exact Nat.mod_le _ _

/-- An entry lies in its directory. -/
theorem entry_eq_some {blocks : ℕ → Block} {k : ℕ} {de : Dirent}
    (h : entry sb V blocks i k = some de) : direntSize * k + direntSize ≤ (V i).size.toNat ∧
      dirent sb V blocks i k = de ∧ de.inum ≠ 0 := by
  unfold entry at h
  split at h
  · rename_i hcond
    cases h
    exact ⟨hcond.1, rfl, hcond.2⟩
  · cases h

/-- `dirlink` logs the record and at most two blocks outside the free map. -/
theorem dirlinkStore_after (hf : AtFile sb V i e s) (hsolid : Solid sb V s.blocks i)
    {name : Name} {inum : ℕ} :
    After (dirlinkStore sb e name inum) s fun _ s' => ∃ D : List ℕ, D.length ≤ 2 ∧
      Logs sb {b | b ∈ sb.iblock (s.itable e).inum :: D} s s' := by
  unfold dirlinkStore
  refine (dirScanAll_runs (k := 0) hf hsolid).after.bind ?_
  rintro r s1 ⟨rfl, m, -, hoff, -⟩
  rw [hoff]
  refine writeEntry_after.bind ?_
  intro n s' hlogs
  exact .pure hlogs

/-- Clearing an entry logs the record and at most two blocks outside the free map. -/
theorem clearDirent_after {k : ℕ} : After (clearDirent sb e (direntSize * k)) s fun _ s' =>
    ∃ D : List ℕ, D.length ≤ 2 ∧ Logs sb {b | b ∈ sb.iblock (s.itable e).inum :: D} s s' := by
  unfold clearDirent
  refine writeEntry_after.bind ?_
  intro n s' hlogs
  split
  · exact .pure hlogs
  · exact .panic

end Directory

/-! ## Clean file systems -/

namespace Clean

variable {sb : Superblock} {s s' : Fs} {G : Facts} {e : InodeId} {i : ℕ} {x : Seen}

/-- Only inodes in memory have changed. -/
theorem retable {table : InodeId → Inode} {R : InodeId → ℤ} {N : InodeId → ℕ}
    {L : Set InodeId} (h : Clean sb s G) (href : ∀ e, (table e).ref = R e) (hnonneg : ∀ e, 0 ≤ R e)
    (hinum : ∀ e, 0 < R e → (table e).inum = N e ∧ N e < sb.ninodes)
    (hunique : ∀ e e', 0 < R e → 0 < R e' → N e = N e' → e = e')
    (hcopy : ∀ e, 0 < R e → (table e).valid = true →
      (table e).d = s.dinode sb (N e) ∧ (s.dinode sb (N e)).type ≠ 0)
    (hvalid : ∀ e ∈ L, 0 < R e → (table e).valid = true) :
    Clean sb { s with itable := table } { G with ref := R, inum := N, loaded := L } :=
  ⟨h.owned, h.held, h.solid, h.names, h.seen, href, hnonneg, hinum, hunique, hcopy, hvalid,
    h.logged⟩

/-- An inode that has been read. -/
theorem atFile (h : Clean sb s G) (he : 0 < G.ref e) (hl : e ∈ G.loaded) :
    AtFile sb (s.dinode sb) (G.inum e) e s := by
  obtain ⟨hd, ht⟩ := h.copy_of_loaded he hl
  exact ⟨h.owned, hd.symm, (h.inum e he).2, ht, h.held⟩

/-- What can be seen of an inode that has been read. -/
theorem seen_loaded (h : Clean sb s G) (he : 0 < G.ref e) (hl : e ∈ G.loaded) :
    G.seen (G.inum e) = some (Seen.of (s.itable e).d
      (contents sb (s.dinode sb) s.blocks (G.inum e))) := by
  obtain ⟨hd, ht⟩ := h.copy_of_loaded he hl
  rw [← h.seen _ (h.inum e he).2, Fs.look_of_type ht, hd]

/-- An inode has been read. -/
theorem loaded (h : Clean sb s G) (hv : (s.itable e).valid = true) : Clean sb s (G.load e) := by
  refine h.retable h.ref h.nonneg h.inum h.unique h.copy ?_
  intro x hx hxr
  rcases hx with rfl | hx
  · exact hv
  · exact h.valid x hx hxr

/-- `ilock` reads the inode. -/
theorem iload_after (h : Clean sb s G) (he : 0 < G.ref e) :
    After (iload sb e) s fun _ s' => Clean sb s' (G.load e) := by
  obtain ⟨hinum, hi⟩ := h.inum e he
  cases hv : (s.itable e).valid with
  | true => exact .of_eq (iload_of_valid hv) (h.loaded hv)
  | false =>
    intro u s' hrun
    rw [iload_of_not_valid hv h.held, hinum] at hrun
    split at hrun
    · cases hrun
    rename_i ht
    cases hrun
    refine h.retable ?_ h.nonneg ?_ h.unique ?_ ?_
    · intro x
      by_cases hx : x = e
      · rw [hx, update_self]
        exact h.ref e
      · rw [update_of_ne hx]
        exact h.ref x
    · intro x hxr
      by_cases hx : x = e
      · rw [hx, update_self]
        exact ⟨hinum, hi⟩
      · rw [update_of_ne hx]
        exact h.inum x hxr
    · intro x hxr hxv
      by_cases hx : x = e
      · rw [hx, update_self]
        exact ⟨rfl, ht⟩
      · rw [update_of_ne hx] at hxv ⊢
        exact h.copy x hxr hxv
    · intro x hx hxr
      by_cases hne : x = e
      · rw [hne, update_self]
      · rw [update_of_ne hne]
        exact h.valid x (hx.resolve_left hne) hxr

section Loaded

variable (h : Clean sb s G) (he : 0 < G.ref e) (hl : e ∈ G.loaded)

include h he hl

/-- The record in memory changes apart from type, size and blocks, and is stored. -/
theorem store {d : Dinode}
    (hx : G.seen (G.inum e) = some x) (ht : d.type = (s.itable e).d.type)
    (ha : d.addrs = (s.itable e).d.addrs) (hs : d.size = (s.itable e).d.size) :
    After (iupdate sb e) (s.setD e d) fun _ s' =>
      Clean sb s' (G.see (G.inum e) (some (Seen.of d x.bytes)) {sb.iblock (G.inum e)}) := by
  obtain ⟨hinum, hi⟩ := h.inum e he
  obtain ⟨hd, htype⟩ := h.copy_of_loaded he hl
  have hself : update (s.dinode sb) (G.inum e) (s.itable e).d = s.dinode sb := by
    rw [hd, update_eq_self]
  have hp := (Pending.refl h.owned hd.symm).setD ht ha
  obtain ⟨s', hrun, -, -, hc, hslots, hdata⟩ := hp.store hi hinum h.held
  have hslots' : ∀ l, slotOf sb (update (s.dinode sb) (G.inum e) d) s'.blocks
      (G.inum e) l = slotOf sb (s.dinode sb) s.blocks (G.inum e) l := by
    intro l
    rw [hslots, slotOf_update_congr ht ha, hself]
    rfl
  have hbyte : ∀ pos, fileByte sb (update (s.dinode sb) (G.inum e) d) s'.blocks
      (G.inum e) pos = fileByte sb (s.dinode sb) s.blocks (G.inum e) pos := by
    intro pos
    unfold fileByte
    rw [hdata, dataAt_update_congr ht ha, hself]
    rfl
  have hsize : (update (s.dinode sb) (G.inum e) d (G.inum e)).size =
      (s.dinode sb (G.inum e)).size := by
    rw [update_self, hs, hd]
  have hlook : s'.look sb (G.inum e) = some (Seen.of d x.bytes) := by
    rw [hc.look hi (by rwa [ht, hd]), contents_congr hsize hbyte,
      (Fs.look_eq_some ((h.seen _ hi).trans hx)).2.2.2.2]
  refine .of_eq hrun ?_
  rw [← hlook]
  refine h.change he hc (by rwa [ht, hd]) ?_ ?_ ?_
  · have hsolid := h.solid _ hi htype
    unfold Solid at hsolid ⊢
    simp only [hsize, hslots']
    exact hsolid
  · intro hdir k de hde
    rw [entry_congr hsize hbyte] at hde
    rw [ht, hd] at hdir
    exact h.names _ hi hdir k de hde
  · have hlogs := (iupdate_after _ _ hrun).1
    have hnum : ((s.setD e d).itable e).inum = G.inum e := by
      simp [Fs.setD, Fs.setInode, hinum]
    rw [hnum] at hlogs
    exact fun b hb => hlogs b hb

/-- The link count changes. -/
theorem setNlink_after {f : BitVec 16 → BitVec 16} (hx : G.seen (G.inum e) = some x) :
    After (setNlink sb e f) s fun _ s' => Clean sb s'
      (G.see (G.inum e) (some { x with nlink := f x.nlink }) {sb.iblock (G.inum e)}) := by
  have hof := Option.some.inj (hx.symm.trans (h.seen_loaded he hl))
  have hnew : ({ x with nlink := f x.nlink } : Seen) =
      Seen.of { (s.itable e).d with nlink := f (s.itable e).d.nlink } x.bytes := by
    rw [hof]
    rfl
  unfold setNlink
  refine .modify_bind ?_
  rw [hnew]
  exact h.store he hl hx rfl rfl rfl

/-- `create` initialises a new inode. -/
theorem initInode_after {major minor : BitVec 16} (hx : G.seen (G.inum e) = some x) :
    After (initInode sb e major minor) s fun _ s' => Clean sb s' (G.see (G.inum e)
      (some (Seen.of { (s.itable e).d with major := major, minor := minor, nlink := 1 } x.bytes))
        {sb.iblock (G.inum e)}) :=
  .modify_bind (h.store he hl hx rfl rfl rfl)

/-- `writei` has written part of a directory. -/
theorem wrote {src : Mem} {d : Dinode} {off w : ℕ} {B : Set ℕ}
    (hw : Wrote sb (s.dinode sb) (G.inum e) e src off w w s s' d)
    (hoff : off ≤ (s.itable e).d.size.toNat) (hmax : off + w ≤ maxfile * bsize)
    (hnames : ∀ k de, entry sb (update (s.dinode sb) (G.inum e) d) s'.blocks (G.inum e) k =
      some de → entry sb (s.dinode sb) s.blocks (G.inum e) k = some de ∨ de.inum < sb.ninodes)
    (hlogs : Logs sb B s s') : ∃ y, s'.look sb (G.inum e) = some y ∧
      Clean sb s' (G.see (G.inum e) (some y) B) := by
  obtain ⟨-, hi⟩ := h.inum e he
  obtain ⟨hd, htype⟩ := h.copy_of_loaded he hl
  have ht : d.type = (s.dinode sb (G.inum e)).type := by rw [hw.fields, hd]
  have hlook := hw.toChanged.look hi (by rwa [ht])
  refine ⟨_, hlook, ?_⟩
  rw [← hlook]
  refine h.change he hw.toChanged (by rwa [ht]) ?_ ?_ hlogs
  · exact hw.solid hd.symm hoff le_rfl hmax (h.solid _ hi htype)
  · intro hdir k de hde
    rw [ht] at hdir
    rcases hnames k de hde with hold | hnew
    · exact h.names _ hi hdir k de hold
    · exact hnew

/-- `writei` has written nothing. -/
theorem wrote_nothing {src : Mem} {d : Dinode} {off : ℕ} {B : Set ℕ}
    (hw : Wrote sb (s.dinode sb) (G.inum e) e src off 0 0 s s' d)
    (hoff : off ≤ (s.itable e).d.size.toNat) (hlogs : Logs sb B s s') :
    Clean sb s' { G with log := G.log ∪ B } := by
  obtain ⟨-, hi⟩ := h.inum e he
  obtain ⟨hd, htype⟩ := h.copy_of_loaded he hl
  have hx := h.seen_loaded he hl
  have hoff' : off ≤ (s.dinode sb (G.inum e)).size.toNat := by rwa [← hd]
  have hmax : off + 0 ≤ maxfile * bsize := hoff'.trans (h.solid _ hi htype).1
  obtain ⟨y, hlook, hclean⟩ := h.wrote he hl hw hoff hmax
    (fun k de hde => .inl (by rwa [hw.entry_of_zero hd.symm hoff'] at hde)) hlogs
  have hsize : d.size = (s.itable e).d.size := by
    apply BitVec.eq_of_toNat_eq
    rw [hw.size]
    omega
  have hbyte : ∀ pos, fileByte sb (update (s.dinode sb) (G.inum e) d) s'.blocks
      (G.inum e) pos = fileByte sb (s.dinode sb) s.blocks (G.inum e) pos := by
    intro pos
    rw [hw.bytes, if_neg (by omega)]
  have hbytes := contents_congr (by rw [update_self, hsize, hd]) hbyte
  have hsame : G.seen (G.inum e) = some y := by
    have ht : d.type ≠ 0 := by
      rw [hw.fields, hd]
      exact htype
    rw [← hlook, hw.toChanged.look hi ht, hbytes, hx, hw.fields]
    simp only [Seen.of, hsize]
  have hsee : G.see (G.inum e) (some y) B = { G with log := G.log ∪ B } := by
    unfold Facts.see
    rw [← hsame, update_eq_self]
  rwa [hsee] at hclean

/-- `writei` has written one entry. -/
theorem wrote_entry {src : Mem} {d : Dinode} {k : ℕ} {B : Set ℕ}
    (hw : Wrote sb (s.dinode sb) (G.inum e) e src (direntSize * k) direntSize direntSize s s' d)
    (hk : direntSize * k ≤ (s.itable e).d.size.toNat)
    (hmax : direntSize * k + direntSize ≤ maxfile * bsize) (hlogs : Logs sb B s s')
    (hinum : (Dirent.ofMem src).inum < sb.ninodes) :
    ∃ y, Clean sb s' (G.see (G.inum e) (some y) B) := by
  obtain ⟨hd, -⟩ := h.copy_of_loaded he hl
  refine (h.wrote he hl hw hk hmax (fun l de hde => ?_) hlogs).imp fun _ hy => hy.2
  rw [hw.entry hd.symm (by rwa [← hd])] at hde
  split at hde
  · split at hde
    · cases hde
      exact .inr hinum
    · cases hde
  · exact .inl hde

/-- `dirlookup` finds entries that name inodes. -/
theorem dirlookupScan_after {name : Name} (hx : G.seen (G.inum e) = some x) :
    After (dirlookupScan sb e name) s fun r s' => s' = s ∧
      ∀ inum off, r = some (inum, off) → inum < sb.ninodes ∧
        ∃ k, off = direntSize * k ∧ direntSize * k ≤ x.size.toNat := by
  have hf := h.atFile he hl
  have hsize := (Fs.look_eq_some ((h.seen _ hf.lt).trans hx)).2.2.2.1
  refine (dirlookupScan_runs hf fun _ => h.solid _ hf.lt hf.type).after.mono ?_
  rintro r s' ⟨rfl, hdir, hr⟩
  refine ⟨rfl, fun inum off hsome => ?_⟩
  rw [hsome] at hr
  obtain ⟨k, hoff, hentry, -⟩ := hr
  have hin := (entry_eq_some hentry).1
  rw [hsize] at hin
  exact ⟨h.names _ hf.lt hdir k _ hentry, k, hoff, by omega⟩

/-- `isdirempty` changes nothing. -/
theorem isdirempty_after :
    After (isdirempty sb e) s fun _ s' => s' = s := by
  have hf := h.atFile he hl
  refine (isdirempty_runs hf (h.solid _ hf.lt hf.type)).after.mono ?_
  rintro r s' ⟨rfl, -⟩
  rfl

/-- `dirlink` stores the entry, or the directory looks as before. -/
theorem dirlinkStore_clean {name : Name} {inum : ℕ} (hinum : inum < sb.ninodes) :
    After (dirlinkStore sb e name inum) s fun r s' => ∃ D : List ℕ, D.length ≤ 2 ∧
      (r = none →
        Clean sb s' { G with log := G.log ∪ {b | b ∈ sb.iblock (G.inum e) :: D} }) ∧
      (r.isSome → ∃ y,
        Clean sb s' (G.see (G.inum e) (some y) {b | b ∈ sb.iblock (G.inum e) :: D})) := by
  have hnum := (h.inum e he).1
  have hf := h.atFile he hl
  have hsolid := h.solid _ hf.lt hf.type
  have hlogs := @dirlinkStore_after _ _ _ _ _ hf hsolid name inum
  refine (hlogs.and (dirlinkStore_runs hf hnum hsolid).after).mono ?_
  rintro r s' ⟨⟨D, hD, hlog⟩, hr⟩
  rw [hnum] at hlog
  refine ⟨D, hD, ?_, ?_⟩
  · intro hnone
    rcases hr with ⟨k, d, hsome, -⟩ | ⟨-, rfl | ⟨k, d, hk, hw⟩, -⟩
    · rw [hnone] at hsome
      cases hsome
    · exact h.mono Set.subset_union_left
    · rw [hf.view] at hk
      exact h.wrote_nothing he hl hw hk hlog
  · intro hsome
    rcases hr with ⟨k, d, -, -, hk, hmax, -, hw⟩ | ⟨hnone, -⟩
    · exact h.wrote_entry he hl hw (by rwa [← hf.view]) hmax hlog
        ((Dirent.inum_ofMem_mem_le _).trans_lt hinum)
    · rw [hnone] at hsome
      cases hsome

/-- `sys_unlink` clears an entry. -/
theorem clearDirent_clean {k : ℕ}
    (hx : G.seen (G.inum e) = some x) (hk : direntSize * k ≤ x.size.toNat) :
    After (clearDirent sb e (direntSize * k)) s fun _ s' => ∃ D : List ℕ, D.length ≤ 2 ∧
      ∃ y, Clean sb s' (G.see (G.inum e) (some y) {b | b ∈ sb.iblock (G.inum e) :: D}) := by
  have hnum := (h.inum e he).1
  have hf := h.atFile he hl
  have hsize := (Fs.look_eq_some ((h.seen _ hf.lt).trans hx)).2.2.2.1
  have hlogs := @clearDirent_after sb s e k
  refine (hlogs.and (clearDirent_runs hf hnum (h.solid _ hf.lt hf.type)).after).mono ?_
  rintro u s' ⟨⟨D, hD, hlog⟩, d, hmax, hw⟩
  rw [hnum] at hlog
  exact ⟨D, hD, h.wrote_entry he hl hw (by rwa [← hf.view, hsize]) hmax hlog
    (lt_of_eq_of_lt (Dirent.inum_ofMem_zero fun _ _ => rfl) (Nat.zero_lt_one.trans sb.root_lt))⟩

end Loaded

/-- `iput` frees an inode. -/
theorem ifree_after (h : Clean sb s G) (he : 0 < G.ref e) (hv : (s.itable e).valid = true) :
    After (ifree sb e) s fun _ s' =>
      Clean sb s' ((G.see (G.inum e) none {sb.iblock (G.inum e)}).unload e) := by
  obtain ⟨hnum, hi⟩ := h.inum e he
  obtain ⟨hd, htype⟩ := h.copy e he hv
  refine (ifree_runs h.owned h.held hnum hi hd.symm htype).after.mono ?_
  rintro u s' ⟨hr, hfree, hlogs, d, htable⟩
  have hself : s'.itable e = { s.itable e with valid := false, d := d } := by
    rw [htable, update_self]
  have hne : ∀ x, x ≠ e → s'.itable x = s.itable x := by
    intro x hx
    rw [htable, update_of_ne hx]
  rw [← Fs.look_eq_none.mpr hfree]
  refine h.replace hr ?_ ?_ ?_ ?_ ?_ hlogs
  · intro ht
    exact absurd hfree ht
  · intro ht
    rw [hfree] at ht
    exact absurd ht (by decide)
  · intro x
    by_cases hx : x = e
    · rw [hx, hself]
      exact ⟨rfl, rfl⟩
    · rw [hne x hx]
      exact ⟨rfl, rfl⟩
  · rintro x ⟨hl, hx⟩ hxr
    rw [hne x hx]
    exact h.valid x hl hxr
  · intro x hxr hxv
    by_cases hx : x = e
    · rw [hx, hself] at hxv
      cases hxv
    · rw [hne x hx] at hxv ⊢
      have hinum : G.inum x ≠ G.inum e := fun heq => hx (h.unique x e hxr he heq)
      rw [hr.records _ (h.inum x hxr).2 hinum]
      exact h.copy x hxr hxv

/-- A record without blocks is stored for an inode that is not in memory. -/
theorem write_new {d : Dinode} (h : Clean sb s G) (hi : i < sb.ninodes)
    (hold : ∀ l, slotOf sb (s.dinode sb) s.blocks i l = 0) (ht : d.type ≠ 0)
    (haddr : ∀ k, d.addr k = 0) (hsize : d.size = 0) (hfree : ∀ e, 0 < G.ref e → G.inum e ≠ i) :
    Clean sb (s.write (sb.iblock i) ((s.blocks (sb.iblock i)).setDinode (i % ipb) d))
      (G.see i (some (Seen.of d [])) {sb.iblock i}) := by
  have hr := h.owned.replaced_write h.held hi hold (.inr haddr)
  have hd : (s.write (sb.iblock i) ((s.blocks (sb.iblock i)).setDinode (i % ipb) d)).dinode sb i =
      d := by rw [dinode_write, update_self]
  have htable := s.write_itable (sb.iblock i) ((s.blocks (sb.iblock i)).setDinode (i % ipb) d)
  have hlogs : Logs sb {sb.iblock i} s
      (s.write (sb.iblock i) ((s.blocks (sb.iblock i)).setDinode (i % ipb) d)) :=
    (Logs.of_eq rfl).cons rfl (.inr rfl)
  generalize s.write (sb.iblock i) ((s.blocks (sb.iblock i)).setDinode (i % ipb) d) = s'
    at hr hd htable hlogs
  have hzero : (s'.dinode sb i).size.toNat = 0 := by rw [hd, hsize]; rfl
  have hlook : s'.look sb i = some (Seen.of d []) := by
    have hempty : contents sb (s'.dinode sb) s'.blocks i = [] := by
      unfold contents
      rw [hzero]
      rfl
    rw [Fs.look_of_type (by rwa [hd]), hd, hempty]
  rw [← hlook]
  refine h.replace hr ?_ ?_ ?_ ?_ ?_ hlogs
  · intro _
    refine ⟨by omega, fun bn hbn => ?_⟩
    rw [hzero] at hbn
    exact absurd hbn (Nat.not_lt_zero _)
  · intro _ k de hde
    have hin := (entry_eq_some hde).1
    rw [hzero] at hin
    unfold direntSize at hin
    omega
  · intro e
    rw [htable]
    exact ⟨rfl, rfl⟩
  · rw [htable]
    exact h.valid
  · intro e he hv
    rw [htable] at hv ⊢
    rw [hr.records _ (h.inum e he).2 (hfree e he)]
    exact h.copy e he hv

/-- A round of `ialloc`. -/
theorem iallocAt_clean {type : BitVec 16} (h : Clean sb s G) (hi : i < sb.ninodes)
    (htype : type ≠ 0) (hused : ∀ e, 0 < G.ref e → (G.seen (G.inum e)).isSome) :
    After (iallocAt sb type i) s fun found s' =>
      (found = false → s' = s) ∧ (found = true → G.seen i = none ∧ Clean sb s'
        (G.see i (some (Seen.of { Dinode.zero with type := type } [])) {sb.iblock i})) := by
  by_cases ht : (s.dinode sb i).type = 0
  · have hnone : G.seen i = none := by
      rw [← h.seen i hi]
      exact Fs.look_eq_none.mpr ht
    have hslots : ∀ l, slotOf sb (s.dinode sb) s.blocks i l = 0 := by
      intro l
      unfold slotOf
      rw [if_neg fun hcond => hcond.2 ht]
    have hnew : ∀ k, ({ Dinode.zero with type := type } : Dinode).addr k = 0 := Dinode.addr_zero
    refine .of_eq (iallocAt_of_free h.held ht) ⟨?_, fun _ => ⟨hnone, ?_⟩⟩
    · intro hfound
      cases hfound
    · refine h.write_new hi hslots htype hnew rfl fun e he heq => ?_
      have hsome := hused e he
      rw [heq, hnone] at hsome
      cases hsome
  · refine .of_eq (iallocAt_of_used h.held ht) ⟨fun _ => rfl, fun hfound => ?_⟩
    cases hfound

end Clean

end RiscvKernel
