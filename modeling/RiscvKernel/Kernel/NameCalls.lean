import RiscvKernel.Kernel.Create
import RiscvKernel.Kernel.Walk

/-!
# The calls that make and remove names

`mkdir`, `mknod`, `link` and `unlink`, run while no other process interferes. Whatever happens,
they give back their references, leave a file system as they found it and log no more blocks than
`begin_op` reserves; and if they return -1, no inode and no directory has changed.
-/

namespace RiscvKernel

open Threads Function
open List (mem_cons_self nil_subset)

section NameCalls

variable {P : Type} {sb : Superblock} {p : P} {s0 s s' : Kernel P} {B G : Facts}
  {e dp n : InodeId} {i : ℕ} {l : List ℕ}

/-- What a call leaves behind: nothing is held, and if it fails everything looks as before. -/
def Kept (sb : Superblock) (s0 : Kernel P) (B : Facts) (r : ℤ) (s : Kernel P) : Prop :=
  ∃ G l, l.length ≤ 9 ∧ Holding sb s0 B [] l s G ∧ (r = -1 → G.seen = B.seen)

namespace Kept

/-- The end of a call. -/
theorem finish {r : ℤ} (h : Holding sb s0 B [] l s G) (hl : l.length ≤ 9)
    (hseen : r = -1 → G.seen = B.seen) :
    Ends p (do
      endFs
      return r) s (Kept sb s0 B) :=
  h.endFs.bind fun _ _ h' => Ends.ret ⟨G, l, hl, h.step h', hseen⟩

variable [DecidableEq P]

/-- The end of a call that holds one inode. -/
theorem leave {r : ℤ} (h : Holding sb s0 B [e] l s G) (hl : l.length ≤ 8)
    (hseen : r = -1 → G.seen = B.seen) :
    Ends p (do
      iunlockput sb e
      endFs
      return r) s (Kept sb s0 B) := by
  have hsub := List.subset_cons_self (sb.iblock (G.inum e)) l
  refine ((h.mono hsub).unlockPut mem_cons_self).bind ?_
  rintro u s1 ⟨G', h1, -, hkeep⟩
  exact finish h1 (by grind) fun hr =>
    (hkeep (.inr (congrFun (hseen hr) _))).trans (hseen hr)

/-- `sys_mkdir` and `sys_mknod`. -/
theorem makeNode {path : Option Path} {type major minor : BitVec 16} (h0 : AtRest sb s0 B)
    (h : Solo sb s0 s B) (htype : type ≠ 0) :
    Ends p (makeNode sb path type major minor) s (Kept sb s0 B) := by
  refine h.beginFs.bind fun u s1 h1 => ?_
  cases path with
  | none => exact finish (h0.start h1) (Nat.zero_le _) fun _ => rfl
  | some path =>
    refine (h0.create h1 htype).bind ?_
    rintro r s2 ⟨G, l, hl, h2, hseen⟩
    cases r with
    | none => exact finish h2 (by omega) fun _ => hseen rfl
    | some e => exact leave h2 hl nofun

/-- The entry has been cleared: the link counts go down and the inodes are given back. -/
theorem unlinkEnd (h : Holding sb s0 B [n, dp] l s G) (hl : l.length ≤ 9)
    (hlog : ∀ x ∈ [n, dp], sb.iblock (G.inum x) ∈ l) :
    Ends p (do
      iunlockput sb dp
      fsCall (setNlink sb n (· - 1))
      iunlockput sb n
      endFs
      return 0) s (Kept sb s0 B) := by
  refine (h.swap.unlockPut (hlog dp (by simp))).bind ?_
  rintro u s1 ⟨G1, h1, hinum, -⟩
  have hn : sb.iblock (G1.inum n) ∈ l := by
    rw [hinum]
    exact hlog n mem_cons_self
  obtain ⟨x, hx⟩ := h1.exists_seen mem_cons_self
  refine (h1.setNlink mem_cons_self hx hn).bind fun u s2 h2 => ?_
  refine (h2.unlockPut hn).bind ?_
  rintro u s3 ⟨G3, h3, -⟩
  exact finish h3 hl nofun

/-- `sys_unlink` clears the entry. -/
theorem unlinkClear {type : BitVec 16} {k : ℕ} {x : Seen} (h : Holding sb s0 B [n, dp] [] s G)
    (hx : G.seen (G.inum dp) = some x) (hk : direntSize * k ≤ x.size.toNat) :
    Ends p (unlinkClear sb dp n type (direntSize * k)) s (Kept sb s0 B) := by
  refine (fsCall_ends (h.clean.clearDirent_clean (h.pos (e := dp) (by simp))
    (h.loaded dp (by simp)) hx hk)).bind ?_
  rintro u s1 ⟨⟨D, hD, y, hclean⟩, hsame⟩
  have hl : (sb.iblock (G.inum n) :: sb.iblock (G.inum dp) :: D).length ≤ 9 := by grind
  have h1 := (h.mono (nil_subset (sb.iblock (G.inum n) :: _))).see (e := dp) (by simp)
    (fun _ => List.mem_cons_of_mem _) (h.next hsame hclean)
  split
  · obtain ⟨z, hz⟩ := h1.exists_seen (e := dp) (by simp)
    refine (h1.setNlink (by simp) hz (by simp [Facts.see])).bind fun u s2 h2 => ?_
    exact unlinkEnd h2 hl (by simp [Facts.see])
  · exact unlinkEnd h1 hl (by simp [Facts.see])

/-- `sys_unlink` after the entry is found: it gives up only on a directory that is not empty. -/
theorem unlinkFound {j k : ℕ} {x : Seen} (h : Holding sb s0 B [dp] [] s G)
    (hseen : G.seen = B.seen) (hplace : G.Place n j) (h' : Solo sb s0 s' (G.got n j))
    (hx : G.seen (G.inum dp) = some x) (hk : direntSize * k ≤ x.size.toNat) :
    Ends p (unlinkFound sb dp n (direntSize * k)) s' (Kept sb s0 B) := by
  refine (h.lock hplace h').bind ?_
  rintro d s1 ⟨h1, -⟩
  have hdp : ((G.got n j).load n).inum dp = G.inum dp :=
    (hplace.got_inum (h.pos mem_cons_self)).2
  have hx1 : ((G.got n j).load n).seen (((G.got n j).load n).inum dp) = some x := by
    rw [hdp]
    exact hx
  split
  · exact Ends.step nofun
  split
  · refine (fsCall_ends (h1.clean.isdirempty_after (h1.pos mem_cons_self)
      (h1.loaded n mem_cons_self))).bind ?_
    rintro empty s2 ⟨hfs, hsame⟩
    have h2 := h1.step (h1.next hsame (by rw [hfs]; exact h1.clean))
    split
    · exact unlinkClear h2 hx1 hk
    · refine ((h2.mono (nil_subset [_])).unlockPut mem_cons_self).bind ?_
      rintro u s3 ⟨G3, h3, -, hkeep⟩
      exact leave h3 (by simp) fun _ => (hkeep (.inr (congrFun hseen _))).trans hseen
  · exact unlinkClear h1 hx1 hk

/-- `sys_unlink` with a path. -/
theorem unlinkPath {path : List UInt8} (h0 : AtRest sb s0 B) (h : Solo sb s0 s B) :
    Ends p (unlinkPath sb path) s (Kept sb s0 B) := by
  refine h.beginFs.bind fun u s1 h1 => (h1.namex h0.noOrphans (h0.cwd p)).bind ?_
  intro r s2 h2
  cases r with
  | none => exact finish (h0.start h2) (Nat.zero_le _) fun _ => rfl
  | some found =>
    obtain ⟨i, -, hplace, h2⟩ := h2
    refine ((h0.start h1).lock hplace h2).bind ?_
    rintro d s3 ⟨h3, -⟩
    split
    · exact leave h3 (Nat.zero_le _) fun _ => rfl
    obtain ⟨x, hx⟩ := h3.exists_seen mem_cons_self
    refine (h3.dirlookup (h3.pos mem_cons_self) (Set.mem_insert _ _) hx).bind ?_
    rintro r s4 ⟨h4, hoff⟩
    cases r with
    | none => exact leave (h3.step h4) (Nat.zero_le _) fun _ => rfl
    | some next =>
      obtain ⟨n, off⟩ := next
      obtain ⟨j, -, hplace', h4⟩ := h4
      obtain ⟨k, rfl, hk⟩ := hoff n off rfl
      exact unlinkFound h3 rfl hplace' h4 hx hk

/-- `sys_link` takes the link count back. -/
theorem linkBad {x : Seen} (h : Holding sb s0 B [e] l s G) (hl : l.length ≤ 8)
    (hx : B.seen (G.inum e) = some x)
    (hup : G.seen = update B.seen (G.inum e) (some { x with nlink := x.nlink + 1 })) :
    Ends p (linkBad sb e) s (Kept sb s0 B) := by
  refine (h.ilock (h.pos mem_cons_self)).bind ?_
  rintro d s1 ⟨h1, -⟩
  have h1' := (h.step (h1.implies Facts.load_implies)).mono
    (List.subset_cons_self (sb.iblock (G.inum e)) l)
  refine (h1'.setNlink mem_cons_self ((congrFun hup _).trans (update_self _ _ _))
    mem_cons_self).bind fun u s2 h2 => ?_
  have hback : update G.seen (G.inum e) (some { x with nlink := x.nlink + 1 - 1 }) =
      B.seen := by
    rw [hup, update_idem, BitVec.add_sub_cancel, ← hx, update_eq_self]
  refine (h2.unlockPut mem_cons_self).bind ?_
  rintro u s3 ⟨G3, h3, -, hkeep⟩
  exact finish h3 (by grind) fun _ => (hkeep (.inr (congrFun hback _))).trans hback

/-- `sys_link` makes the new name. -/
theorem linkName {new : List UInt8} {x : Seen} (h : Holding sb s0 B [e] l s G)
    (hl : l.length ≤ 1) (hlog : sb.iblock (G.inum e) ∈ l) (hx : B.seen (G.inum e) = some x)
    (hup : G.seen = update B.seen (G.inum e) (some { x with nlink := x.nlink + 1 })) :
    Ends p (linkName sb e new) s (Kept sb s0 B) := by
  refine (h.namex h.noOrphans fun c hc => h.cwd_pos hc).bind ?_
  intro r s1 h1
  cases r with
  | none => exact linkBad (h.step h1) (by omega) hx hup
  | some found =>
    obtain ⟨dp, name⟩ := found
    obtain ⟨j, -, hplace, h1⟩ := h1
    refine (h.lock hplace h1).bind ?_
    rintro d s2 ⟨h2, -⟩
    have he : ((G.got dp j).load dp).inum e = G.inum e :=
      (hplace.got_inum (h.pos mem_cons_self)).2
    have hG : ((G.got dp j).load dp).seen = G.seen := rfl
    generalize (G.got dp j).load dp = G2 at h2 he hG
    have hpos := h2.pos (e := e) (by simp)
    refine (h2.inumOf hpos).bind ?_
    rintro inum s3 ⟨rfl, h3⟩
    have h3' := (h2.step h3).mono (List.subset_cons_self (sb.iblock (G2.inum dp)) l)
    refine (h3'.dirlink mem_cons_self mem_cons_self (h3.clean.inum e hpos).2).bind ?_
    rintro r s4 ⟨D, G4, hD, h4, hinum4, -, hfail⟩
    refine (h4.unlockPut (by simp [hinum4])).bind ?_
    rintro u s5 ⟨G5, h5, hinum, hkeep⟩
    have he5 : G5.inum e = G.inum e := by rw [hinum, hinum4, he]
    have hlength : (D ++ sb.iblock (G2.inum dp) :: l).length ≤ 8 := by grind
    split
    · rename_i hr
      have hsame : G4.seen = G.seen := (hfail hr).trans hG
      have hkept : G5.seen = G.seen := by
        refine (hkeep ?_).trans hsame
        by_cases hdp : G2.inum dp = G2.inum e
        · have heq := h2.clean.unique dp e (h2.pos mem_cons_self) hpos hdp
          exact .inl (by rw [heq]; exact mem_cons_self)
        · rw [hsame, hinum4, hup]
          exact .inr (update_of_ne (he ▸ hdp) _ _)
      refine linkBad (x := x) h5 hlength ?_ ?_
      · rw [he5, hx]
      · rw [hkept, hup, he5]
    · have hlog5 : sb.iblock (G5.inum e) ∈ D ++ sb.iblock (G2.inum dp) :: l := by
        rw [he5]
        simp [hlog]
      refine (h5.put hlog5).bind ?_
      rintro u s6 ⟨G6, h6, -⟩
      exact finish h6 (by omega) nofun

/-- `sys_link`: the link count of the file goes up before the name is made. -/
theorem linkPaths {old new : List UInt8} (h0 : AtRest sb s0 B) (h : Solo sb s0 s B) :
    Ends p (linkPaths sb old new) s (Kept sb s0 B) := by
  refine h.beginFs.bind fun u s1 h1 => Ends.bind (Q := Found sb s0 B) ?_ ?_
  · exact (h1.namex h0.noOrphans (h0.cwd p)).bind fun r s2 h2 => Ends.ret h2
  intro r s2 h2
  cases r with
  | none => exact finish (h0.start h2) (Nat.zero_le _) fun _ => rfl
  | some e =>
    obtain ⟨i, -, hplace, h2⟩ := h2
    refine ((h0.start h1).lock hplace h2).bind ?_
    rintro d s3 ⟨h3, -⟩
    split
    · exact leave h3 (Nat.zero_le _) fun _ => rfl
    obtain ⟨x, hx⟩ := h3.exists_seen mem_cons_self
    refine ((h3.mono (nil_subset [_])).setNlink mem_cons_self hx
      mem_cons_self).bind fun u s4 h4 => ?_
    refine h4.iunlock.bind fun u s5 h5 => ?_
    exact linkName (h4.step h5) le_rfl mem_cons_self hx rfl

end Kept

/-- The calls that make and remove names. -/
inductive NameCall
  | mkdir (path : Option Path)
  | mknod (path : Option Path) (major minor : BitVec 16)
  | link (old new : Option Path)
  | unlink (path : Option Path)

/-- The program of a call. -/
def NameCall.prog [DecidableEq P] (sb : Superblock) : NameCall → KProg P ℤ
  | .mkdir path => sysMkdir sb path
  | .mknod path major minor => sysMknod sb path major minor
  | .link old new => sysLink sb old new
  | .unlink path => sysUnlink sb path

variable [DecidableEq P]

/-- What every call leaves behind. -/
theorem NameCall.kept (c : NameCall) (h : AtRest sb s B) :
    Ends p (c.prog sb) s (Kept sb s B) := by
  have hsolo : Solo sb s s B := ⟨rfl, h.clean⟩
  have hnothing : Kept sb s B (-1) s := ⟨B, [], Nat.zero_le _, h.start hsolo, fun _ => rfl⟩
  cases c with
  | mkdir path => exact Kept.makeNode h hsolo (show tDir ≠ 0 by decide)
  | mknod path major minor => exact Kept.makeNode h hsolo (show tDevice ≠ 0 by decide)
  | link old new =>
    cases old with
    | none => exact Ends.ret hnothing
    | some old =>
      cases new with
      | none => exact Ends.ret hnothing
      | some new => exact Kept.linkPaths h hsolo
  | unlink path =>
    cases path with
    | none => exact Ends.ret hnothing
    | some path => exact Kept.unlinkPath h hsolo

/-- `mkdir`, `mknod`, `link` and `unlink` that return -1 have changed no inode: which inodes are
allocated, their fields and their bytes, and so every directory, are as before. -/
theorem failed_name_call_changes_nothing (sb : Superblock) (p : P) (s s' : Kernel P) (B : Facts)
    (c : NameCall) (h : AtRest sb s B) (hrun : (c.prog sb).exec p s = .ok (-1) s') :
    ∀ i < sb.ninodes, s'.fs.look sb i = s.fs.look sb i := by
  intro i hi
  obtain ⟨G, l, -, hG, hseen⟩ := c.kept h (-1) s' hrun
  rw [hG.clean.seen i hi, hseen rfl, h.clean.seen i hi]

/-- The new file system is well formed. -/
theorem rootKernel_atRest : AtRest mkfsSb rootKernel rootFacts where
  clean := rootKernel_clean
  noOrphans := rootFacts_noOrphans
  allocated := by
    intro e _
    change (freshFs.look mkfsSb rootino).isSome
    rw [Fs.look_of_type ((freshFs_type (by decide)).2 rfl)]
    rfl
  cwd := by
    rintro p e he
    cases he
    decide

/-- `mkdir` of `/.`. -/
def mkdirDot : NameCall := .mkdir (some ⟨[slash, 46], by decide⟩)

/-- `mkdir` of `/.` fails. -/
theorem failed_mkdir_root : ∃ s', (mkdirDot.prog mkfsSb).exec () rootKernel =
    .ok (-1) s' ∧ s'.fs.look mkfsSb rootino = freshFs.look mkfsSb rootino := by
  have hrun := Outcome.eq_ok (o := (mkdirDot.prog mkfsSb).exec () rootKernel)
    (a := -1) (by decide +kernel)
  exact ⟨_, hrun, failed_name_call_changes_nothing mkfsSb () rootKernel _ rootFacts _
    rootKernel_atRest hrun rootino (by decide)⟩

/-- Any number of calls by any processes, one after the other, leave a well-formed file system:
blocks have one owner, files have no holes, names lead to inodes, inodes without links are in use,
and no reference has been lost or left behind. -/
theorem name_calls_keep_file_system (sb : Superblock) (s0 s : Kernel P) (B : Facts)
    (h : AtRest sb s0 B) (hrun : Seq.Calls (fun c : P × NameCall => (c.2.prog sb).exec c.1)
      (fun _ _ => True) s0 s) :
    ∃ G, AtRest sb s G ∧ ∀ e, (s.fs.itable e).ref = (s0.fs.itable e).ref := by
  induction hrun with
  | start => exact ⟨B, h, fun _ => rfl⟩
  | @step s1 s2 c r _ _ hcall ih =>
    obtain ⟨G1, h1, href⟩ := ih
    obtain ⟨G2, l, -, h2, -⟩ := c.2.kept h1 r s2 hcall
    refine ⟨G2, h2.done, fun e => ?_⟩
    rw [← href, h2.clean.ref, h1.clean.ref]
    exact (h2.ref e).trans (add_zero _)

/-- `mkdir` of `/a`. -/
def mkdirA : NameCall := .mkdir (some ⟨[slash, 97], by decide⟩)

theorem mkdir_runs : ∃ s', (mkdirA.prog mkfsSb).exec () rootKernel = .ok 0 s' :=
  ⟨_, Outcome.eq_ok (by decide +kernel)⟩

/-- The file system after `mkdir` of `/a`. -/
theorem mkdir_keeps_root : ∃ s' G, AtRest mkfsSb s' G ∧
    (mkdirA.prog mkfsSb).exec () rootKernel = .ok 0 s' := by
  obtain ⟨s', hrun⟩ := mkdir_runs
  obtain ⟨G, hG, -⟩ := name_calls_keep_file_system mkfsSb rootKernel _ rootFacts rootKernel_atRest
    (.step .start (i := ((), mkdirA)) trivial hrun)
  exact ⟨s', G, hG, hrun⟩

/-! ## What a call logs -/

/-- `mkdir`, `mknod`, `link` and `unlink` log no more blocks than `begin_op` reserves. -/
theorem name_call_within_reservation (sb : Superblock) (p : P) (s s' : Kernel P) (B : Facts)
    (c : NameCall) (r : ℤ) (hmap : sb.size < bpb) (h : AtRest sb s B) (hempty : s.fs.logged = [])
    (hrun : (c.prog sb).exec p s = .ok r s') : s'.fs.logged.toFinset.card ≤ maxopblocks := by
  have hnone : AtRest sb s { B with log := ∅ } := by
    refine ⟨{ h.clean with logged := ?_ }, h.noOrphans, h.allocated, h.cwd⟩
    rw [hempty]
    exact nofun
  obtain ⟨G, l, hl, hG, -⟩ := c.kept hnone r s' hrun
  have hlogs : Logs sb {b | b ∈ l} s.fs s'.fs := by
    intro b hb
    rcases hG.clean.logged b hb with hin | hlog
    · exact .inr (.inl hin)
    · exact .inr (.inr ((hG.log b hlog).resolve_left (Set.notMem_empty b)))
  have hcard := hlogs.card_le hempty
  rw [Nat.div_eq_of_lt hmap] at hcard
  exact hcard.trans (Nat.succ_le_succ hl)

/-- The blocks that `mkdir` of `/a` logs. -/
theorem mkdir_within_reservation : ∃ s', (mkdirA.prog mkfsSb).exec ()
    rootKernel = .ok 0 s' ∧ s'.fs.logged.toFinset.card ≤ maxopblocks := by
  obtain ⟨s', hrun⟩ := mkdir_runs
  exact ⟨s', hrun, name_call_within_reservation mkfsSb () rootKernel _ rootFacts _ 0 (by decide)
    rootKernel_atRest rfl hrun⟩

/-- A chunk of `filewrite`, at any offset and from any memory, logs no more blocks than `begin_op`
reserves. -/
theorem filewrite_chunk_within_reservation (sb : Superblock) (s s' : Fs) (e : InodeId)
    (source : Source) (src off i n : ℕ) (r : ℤ) (hmap : sb.size < bpb) (hempty : s.logged = [])
    (hrun : writei sb e source src off (min (n - i) maxWrite) s = .ok r s') :
    s'.logged.toFinset.card ≤ maxopblocks := by
  obtain ⟨D, hD, hlogs⟩ := writei_after r s' hrun
  have htouched : touched off (min (n - i) maxWrite) ≤ 4 := by
    have hle : min (n - i) maxWrite ≤ 3 * bsize := Nat.min_le_right _ _
    generalize min (n - i) maxWrite = m at hle
    unfold touched
    unfold bsize at hle ⊢
    split
    · omega
    · omega
  refine (hlogs.card_le hempty).trans ?_
  rw [List.length_cons, Nat.div_eq_of_lt hmap]
  unfold maxopblocks
  omega

/-- A byte is written to the root directory. -/
theorem writei_within_reservation : ∃ r s', writei mkfsSb 0 (.kernel fun _ => 7) 0 0
    (min (1 - 0) maxWrite) rootLoaded = .ok r s' ∧ s'.logged.toFinset.card ≤ maxopblocks := by
  have hrun := Outcome.eq_ok (o := writei mkfsSb 0 (.kernel fun _ => 7) 0 0
    (min (1 - 0) maxWrite) rootLoaded) (a := 1) (by decide +kernel)
  exact ⟨_, _, hrun, filewrite_chunk_within_reservation mkfsSb rootLoaded _ 0 _ 0 0 0 1 1
    (by decide) rfl hrun⟩

end NameCalls

end RiscvKernel
