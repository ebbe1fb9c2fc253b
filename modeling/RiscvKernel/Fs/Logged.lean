import Mathlib.Order.Interval.Finset.Nat
import RiscvKernel.Fs.Dir

/-!
# What the functions log

A function that changes one file logs blocks of the free map, the block of the inode record, the
indirect block, and one block for each block of the file that it writes.
-/

namespace RiscvKernel

open Threads Function
open Threads.Seq (After)
open List (mem_cons mem_cons_of_mem mem_cons_self mem_toFinset)

variable {sb : Superblock} {B B' : Set ℕ} {s s' t : Fs} {e : InodeId} {a b : ℕ}

/-- The block is part of the free map. -/
def InMap (sb : Superblock) (b : ℕ) : Prop := sb.bmapstart ≤ b ∧ b < sb.nmeta

/-- What has been logged from `s` to `s'` is part of the free map or in `B`. -/
def Logs (sb : Superblock) (B : Set ℕ) (s s' : Fs) : Prop :=
  ∀ b ∈ s'.logged, b ∈ s.logged ∨ InMap sb b ∨ b ∈ B

theorem Logs.of_eq (h : s'.logged = s.logged) : Logs sb B s s' := fun _ hb => Or.inl (h ▸ hb)

theorem Logs.mono (h : Logs sb B s s') (hB : B ⊆ B') : Logs sb B' s s' :=
  fun b hb => (h b hb).imp_right (Or.imp_right fun hmem => hB hmem)

theorem Logs.trans (h : Logs sb B s s') (h' : Logs sb B' s' t) : Logs sb (B ∪ B') s t := by
  intro b hb
  rcases h' b hb with hold | hmap | hnew
  · exact (h b hold).imp_right (Or.imp_right .inl)
  · exact .inr (.inl hmap)
  · exact .inr (.inr (.inr hnew))

theorem Logs.same (h : Logs sb B s s') (h' : Logs sb B s' t) : Logs sb B s t :=
  (h.trans h').mono (Set.union_subset le_rfl le_rfl)

/-- One more block is logged. -/
theorem Logs.cons {c : ℕ} (h : Logs sb B s s') (ht : t.logged = c :: s'.logged)
    (hc : InMap sb c ∨ c ∈ B) : Logs sb B s t := by
  intro b hb
  rw [ht] at hb
  rcases mem_cons.mp hb with rfl | hb
  · exact .inr hc
  · exact h b hb

/-- The bit of a block is in the free map. -/
theorem inMap_bblock (hb : b < sb.size) : InMap sb (sb.bblock b) :=
  ⟨Nat.le_add_left _ _, Superblock.bblock_lt_nmeta hb⟩

/-! ## Buffers and the free map -/

/-- `bread` logs nothing. -/
theorem fsRead_after : After (fsRead b) s fun bp s' => bp.blockno = b ∧
    bp.data = s.blocks b ∧ s'.logged = s.logged ∧ s'.itable = s.itable ∧ s'.blocks = s.blocks := by
  intro bp s' h
  unfold fsRead at h
  split at h
  · cases h
  · cases h
    exact ⟨rfl, rfl, rfl, rfl, rfl⟩

/-- A buffer that is changed, logged and released. -/
theorem fsLog_fsRelse_after {bp : Bp} : After (do
      let bp ← fsLog bp
      fsRelse bp : FsM Unit) s fun _ s' => s'.logged = bp.blockno :: s.logged ∧
    s'.itable = s.itable := by
  intro u s' h
  cases h
  exact ⟨rfl, rfl⟩

/-- A block is logged and released. -/
theorem fsLog_fsRelse_bind {α : Type} {bp : Bp} {g : FsM α} {Q : α → Fs → Prop}
    (h : ∀ s', s'.logged = bp.blockno :: s.logged → s'.itable = s.itable → After g s' Q) :
    After (do
      let bp ← fsLog bp
      fsRelse bp
      g) s Q := h _ rfl rfl

/-- `bzero` logs the block. -/
theorem bzero_after : After (bzero b) s fun _ s' => s'.logged = b :: s.logged ∧
    s'.itable = s.itable := by
  refine fsRead_after.bind ?_
  rintro bp s1 ⟨hno, -, hlog, htab, -⟩
  refine fsLog_fsRelse_after.mono ?_
  rintro u s' ⟨hlog', htab'⟩
  rw [hlog', htab', ← hlog, htab]
  exact ⟨congrArg (· :: s1.logged) hno, rfl⟩

/-- `balloc` logs the free map and the block. -/
theorem ballocFrom_after {n q : ℕ} : After (ballocFrom sb n q) s fun a s' =>
    Logs sb {a} s s' ∧ s'.itable = s.itable ∧ a < sb.size := by
  induction n generalizing q s with
  | zero =>
    refine .modify_bind (.pure ⟨Logs.of_eq rfl, rfl, ?_⟩)
    exact (nmeta_pos sb).trans_le Superblock.nmeta_le
  | succ n ih =>
    rw [ballocFrom]
    refine fsRead_after.bind ?_
    rintro bp s1 ⟨hno, -, hlog, htab, -⟩
    split
    · rename_i bi hscan
      have hlt := (scanBits_some hscan).2.2.1
      refine fsLog_fsRelse_bind fun s2 hlog2 htab2 => bzero_after.bind ?_
      rintro u s3 ⟨hlog3, htab3⟩
      refine .pure ⟨?_, by rw [htab3, htab2, htab], by omega⟩
      refine ((Logs.of_eq hlog).cons hlog2 (.inl ?_)).cons hlog3 (.inr rfl)
      rw [Bp.modify, hno]
      exact inMap_bblock (by omega)
    · refine .modify_bind (ih.mono ?_)
      rintro a s' ⟨hl, ht, hlt⟩
      exact ⟨(Logs.of_eq hlog).same fun b hb => hl b hb, ht.trans htab, hlt⟩

/-- `balloc` logs the free map and the block. -/
theorem balloc_after : After (balloc sb) s fun a s' =>
    Logs sb {a} s s' ∧ s'.itable = s.itable ∧ a < sb.size := ballocFrom_after

/-- `bfree` logs and changes the free map. -/
theorem bfree_after (hb : b < sb.size) : After (bfree sb b) s fun _ s' =>
    Logs sb ∅ s s' ∧ s'.itable = s.itable ∧ ∀ c, ¬ InMap sb c → s'.blocks c = s.blocks c := by
  refine fsRead_after.bind ?_
  rintro bp s1 ⟨hno, -, hlog, htab, hblocks⟩
  have hmap : InMap sb bp.blockno := by
    rw [hno]
    exact inMap_bblock hb
  split
  · exact .panic
  · intro u s' h
    cases h
    refine ⟨?_, htab, ?_⟩
    · intro c hc
      rcases mem_cons.mp hc with rfl | hc
      · exact .inr (.inl hmap)
      · exact .inl (hlog ▸ hc)
    · intro c hc
      refine (update_of_ne ?_ _ _).trans (congrFun hblocks c)
      rintro rfl
      exact hc hmap

/-- `iupdate` logs the block of the record. -/
theorem iupdate_after : After (iupdate sb e) s fun _ s' =>
    Logs sb {sb.iblock (s.itable e).inum} s s' ∧ s'.itable = s.itable := by
  unfold iupdate
  refine .gets_bind (fsRead_after.bind ?_)
  rintro bp s1 ⟨hno, -, hlog, htab, -⟩
  refine fsLog_fsRelse_after.mono ?_
  rintro u s' ⟨hlog', htab'⟩
  refine ⟨?_, htab'.trans htab⟩
  intro b hb
  rw [hlog', hlog] at hb
  rcases mem_cons.mp hb with rfl | hb
  · exact .inr (.inr hno)
  · exact .inl hb

/-- The blocks of the free map come on top of those that are listed. -/
theorem Logs.card_le {l : List ℕ} (h : Logs sb {b | b ∈ l} s s') (hempty : s.logged = []) :
    s'.logged.toFinset.card ≤ l.length + sb.size / bpb + 1 := by
  have hsub : s'.logged.toFinset ⊆ l.toFinset ∪ Finset.Ico sb.bmapstart sb.nmeta := by
    intro b hb
    rw [Finset.mem_union, Finset.mem_Ico, mem_toFinset]
    rcases h b (mem_toFinset.mp hb) with hold | hmap | hl
    · rw [hempty] at hold
      cases hold
    · exact .inr hmap
    · exact .inl hl
  have hcard := (Finset.card_le_card hsub).trans (Finset.card_union_le _ _)
  have hlist := l.toFinset_card_le
  rw [Nat.card_Ico, Superblock.nmeta] at hcard
  generalize sb.size / bpb = k at hcard ⊢
  omega

/-! ## Files -/

/-- The inode at `e` gets addresses and keeps those that it has; the rest of the table stays. -/
structure Extends (e : InodeId) (s s' : Fs) : Prop where
  /-- Only the record of the inode changes. -/
  itable : s'.itable = update s.itable e { s.itable e with d := (s'.itable e).d }
  /-- An address that is there stays. -/
  addr : ∀ k, (s.itable e).d.addr k ≠ 0 → (s'.itable e).d.addr k = (s.itable e).d.addr k

/-- The indirect block of the inode at `e`, if there is one. -/
def indirectOf (e : InodeId) (s : Fs) : Set ℕ := {b | b ≠ 0 ∧ b = (s.itable e).d.addr ndirect}

theorem Extends.of_eq (h : s'.itable = s.itable) : Extends e s s' := by
  constructor
  · rw [h, update_eq_self]
  · intro k _
    rw [h]

theorem Extends.trans (h : Extends e s s') (h' : Extends e s' t) : Extends e s t := by
  constructor
  · have heq := h'.itable
    generalize (t.itable e).d = d at heq ⊢
    rw [heq, h.itable, update_idem, update_self]
  · intro k hk
    rw [h'.addr k (by rw [h.addr k hk]; exact hk), h.addr k hk]

/-- The number stays. -/
theorem Extends.inum (h : Extends e s s') : (s'.itable e).inum = (s.itable e).inum := by
  rw [h.itable, update_self]

/-- The indirect block stays. -/
theorem Extends.indirectOf (h : Extends e s s') : indirectOf e s ⊆ indirectOf e s' := by
  rintro b ⟨hb, heq⟩
  refine ⟨hb, ?_⟩
  rw [heq] at hb
  rw [heq, h.addr ndirect hb]

/-- `addrOrAlloc` logs the block if it is new. -/
theorem addrOrAlloc_after {k : ℕ} (hk : k < 13) : After (addrOrAlloc sb e k) s fun a s' =>
    Logs sb {a} s s' ∧ Extends e s s' ∧ (a ≠ 0 → (s'.itable e).d.addr k = a) := by
  unfold addrOrAlloc
  refine .gets_bind ?_
  split
  · rename_i hzero
    refine balloc_after.bind ?_
    rintro a s1 ⟨hlogs, htab, hlt⟩
    have ha : a < 2 ^ 32 := by
      have := sb.size_lt
      omega
    split
    · rename_i hz
      exact .pure ⟨hz ▸ hlogs, Extends.of_eq htab, fun hne => absurd rfl hne⟩
    · refine .modify_bind (.pure ⟨fun b hb => hlogs b hb, ⟨?_, ?_⟩, fun _ => ?_⟩)
      · simp [Fs.setD, Fs.setInode, htab]
      · intro l hl
        have hne : l ≠ k := by
          rintro rfl
          exact hl hzero
        simp [Fs.setD, Fs.setInode, htab, Dinode.addr_setAddr _ hk ha, hne]
      · simp [Fs.setD, Fs.setInode, Dinode.addr_setAddr _ hk ha]
  · exact .pure ⟨Logs.of_eq rfl, Extends.of_eq rfl, fun _ => rfl⟩

/-- `bmapIndirect` logs the block if it is new, and the indirect block. -/
theorem bmapIndirect_after {addr j : ℕ} : After (bmapIndirect sb addr j) s fun a s' =>
    Logs sb {a, addr} s s' ∧ s'.itable = s.itable := by
  unfold bmapIndirect
  refine fsRead_after.bind ?_
  rintro bp s1 ⟨hno, -, hlog, htab, -⟩
  split
  · refine balloc_after.bind ?_
    rintro a s2 ⟨hlogs, htab2, -⟩
    have hlogs' : Logs sb {a, addr} s s2 :=
      (Logs.of_eq hlog).same (hlogs.mono (Set.singleton_subset_iff.mpr (.inl rfl)))
    split
    · rename_i hz
      intro b s' h
      cases h
      refine ⟨?_, htab2.trans htab⟩
      subst hz
      exact hlogs'
    · intro b s' h
      cases h
      exact ⟨hlogs'.cons rfl (.inr (.inr hno)), htab2.trans htab⟩
  · intro b s' h
    cases h
    exact ⟨Logs.of_eq hlog, htab⟩

/-- `bmap` logs the block if it is new, and the indirect block. -/
theorem bmap_after {bn : ℕ} : After (bmap sb e bn) s fun a s' =>
    Logs sb ({a} ∪ indirectOf e s') s s' ∧ Extends e s s' := by
  unfold bmap
  split
  · rename_i hbn
    refine (addrOrAlloc_after (by unfold ndirect at hbn; omega)).mono ?_
    rintro a s' ⟨hlogs, hext, -⟩
    exact ⟨hlogs.mono Set.subset_union_left, hext⟩
  split
  · refine (addrOrAlloc_after (by decide)).bind ?_
    rintro addr s1 ⟨hlogs, hext, haddr⟩
    have hind : addr ≠ 0 → addr ∈ indirectOf e s1 := fun hne => ⟨hne, (haddr hne).symm⟩
    split
    · rename_i hz
      subst hz
      exact .pure ⟨hlogs.mono Set.subset_union_left, hext⟩
    · rename_i hne
      refine bmapIndirect_after.mono ?_
      rintro a s' ⟨hlogs', htab⟩
      have hind' : addr ∈ indirectOf e s' := (Extends.of_eq htab).indirectOf (hind hne)
      refine ⟨?_, hext.trans (Extends.of_eq htab)⟩
      refine (hlogs.mono ?_).same (hlogs'.mono ?_)
      · exact Set.singleton_subset_iff.mpr (.inr hind')
      · rintro b (rfl | rfl)
        · exact .inl rfl
        · exact .inr hind'
  · exact .panic

/-- The number of blocks of a file that `n` bytes at offset `off` touch. -/
def touched (off n : ℕ) : ℕ := if n = 0 then 0 else (off % bsize + n - 1) / bsize + 1

/-- One block less is touched by what follows the first one. -/
theorem touched_succ {off n m : ℕ} (hn : 0 < n) (hm : m = min n (bsize - off % bsize)) :
    touched (off + m) (n - m) + 1 ≤ touched off n := by
  unfold touched
  rw [if_neg hn.ne']
  split
  · exact Nat.succ_le_succ (Nat.zero_le _)
  · have hmod : (off + m) % bsize = 0 := by
      unfold bsize at *
      omega
    rw [hmod]
    unfold bsize at *
    omega

/-- The loop of `writei` logs one block for each block that it touches. -/
theorem writeiLoop_after {source : Source} {n fuel tot off src : ℕ} :
    After (writeiLoop sb e source n fuel tot off src) s fun _ s' =>
      Extends e s s' ∧ ∃ D : List ℕ, D.length ≤ touched off (n - tot) ∧
        Logs sb ({b | b ∈ D} ∪ indirectOf e s') s s' := by
  induction fuel generalizing tot off src s with
  | zero =>
    exact .pure ⟨Extends.of_eq rfl, [], Nat.zero_le _, Logs.of_eq rfl⟩
  | succ fuel ih =>
    rw [writeiLoop]
    split
    · rename_i hlt
      refine bmap_after.bind ?_
      rintro a s1 ⟨hlogs, hext⟩
      have hpos : 1 ≤ touched off (n - tot) := by
        unfold touched
        rw [if_neg (by omega)]
        exact Nat.succ_le_succ (Nat.zero_le _)
      have hfirst : Logs sb ({b | b ∈ [a]} ∪ indirectOf e s1) s s1 :=
        hlogs.mono (Set.union_subset_union_left _ (Set.singleton_subset_iff.mpr mem_cons_self))
      split
      · exact .pure ⟨hext, [a], hpos, hfirst⟩
      refine fsRead_after.bind ?_
      rintro bp s2 ⟨hno, -, hlog2, htab2, -⟩
      dsimp only
      split
      · refine fsLog_fsRelse_bind fun s3 hlog3 htab3 => ih.mono ?_
        rintro r s' ⟨hext', D, hlen, hlogs'⟩
        have hext3 : Extends e s1 s3 := Extends.of_eq (htab3.trans htab2)
        have hlogs3 : Logs sb ({b | b ∈ a :: D} ∪ indirectOf e s') s s3 := by
          refine ((hlogs.mono ?_).same (Logs.of_eq hlog2)).cons hlog3
            (.inr (.inl (mem_cons.mpr (.inl hno))))
          exact Set.union_subset_union (Set.singleton_subset_iff.mpr mem_cons_self)
            (hext3.trans hext').indirectOf
        refine ⟨(hext.trans hext3).trans hext', a :: D, ?_, hlogs3.same (hlogs'.mono ?_)⟩
        · have hstep : touched (off + min (n - tot) (bsize - off % bsize))
              (n - tot - min (n - tot) (bsize - off % bsize)) + 1 ≤ touched off (n - tot) :=
            touched_succ (by omega) rfl
          rw [List.length_cons]
          rw [Nat.sub_add_eq] at hlen
          omega
        · exact Set.union_subset_union_left _ fun b hb => mem_cons_of_mem _ hb
      · intro r s' h
        cases h
        refine ⟨hext.trans (Extends.of_eq htab2), [a], hpos, ?_⟩
        exact (hfirst.same (Logs.of_eq hlog2)).mono
          (Set.union_subset_union_right _ (Extends.of_eq htab2).indirectOf)
    · exact .pure ⟨Extends.of_eq rfl, [], Nat.zero_le _, Logs.of_eq rfl⟩

/-- The blocks that a write to one file may log: that of its record, its indirect block, and one
for each block of the file that it touches. -/
theorem writei_after {source : Source} {src off n : ℕ} :
    After (writei sb e source src off n) s fun _ s' => ∃ D : List ℕ,
      D.length ≤ touched off n + 1 ∧
        Logs sb {b | b ∈ sb.iblock (s.itable e).inum :: D} s s' := by
  unfold writei
  refine .gets_bind ?_
  split
  · exact .pure ⟨[], Nat.zero_le _, Logs.of_eq rfl⟩
  split
  · exact .pure ⟨[], Nat.zero_le _, Logs.of_eq rfl⟩
  refine writeiLoop_after.bind ?_
  rintro ⟨tot, off'⟩ s1 ⟨hext, D, hlen, hlogs⟩
  refine .modify_bind ?_
  generalize hs2 : (if off' > (s1.itable e).d.size.toNat then
    s1.setD e { (s1.itable e).d with size := BitVec.ofNat 32 off' } else s1) = s2
  have hlog2 : s2.logged = s1.logged := by
    rw [← hs2]
    split <;> rfl
  have hinum : (s2.itable e).inum = (s.itable e).inum := by
    rw [← hs2, ← hext.inum]
    split
    · simp [Fs.setD, Fs.setInode]
    · rfl
  refine iupdate_after.bind ?_
  rintro - s' ⟨hlogs', -⟩
  rw [hinum] at hlogs'
  refine .pure ⟨(s1.itable e).d.addr ndirect :: D, Nat.succ_le_succ hlen, ?_⟩
  refine (hlogs.mono ?_).same (((Logs.of_eq hlog2).same hlogs').mono ?_)
  · rintro b (hb | ⟨-, hb⟩)
    · exact mem_cons_of_mem _ (mem_cons_of_mem _ hb)
    · exact mem_cons_of_mem _ (mem_cons.mpr (.inl hb))
  · exact Set.singleton_subset_iff.mpr mem_cons_self

/-! ## Transactions -/

/-- Blocks that leave an entry of the header unused do not overflow it. -/
theorem logHeader_isSome {lh bs : List ℕ} (h : lh.length + bs.toFinset.card < logblocks) :
    ∃ blocks, logHeader lh bs = some blocks ∧ (∀ b ∈ bs, b ∈ blocks) ∧
      blocks.length ≤ lh.length + bs.toFinset.card := by
  induction bs with
  | nil => exact ⟨lh, rfl, fun b hb => absurd hb List.not_mem_nil, Nat.le_add_right _ _⟩
  | cons b bs ih =>
    have hle : bs.toFinset.card ≤ (b :: bs).toFinset.card := by
      rw [List.toFinset_cons]
      exact Finset.card_le_card (Finset.subset_insert _ _)
    obtain ⟨blocks, hblocks, hmem, hlen⟩ := ih (by omega)
    simp only [logHeader, hblocks, Option.bind_eq_bind, Option.bind_some]
    rw [if_neg (by omega)]
    by_cases hb : b ∈ blocks
    · rw [if_pos hb]
      exact ⟨blocks, rfl, List.forall_mem_cons.mpr ⟨hb, hmem⟩, by omega⟩
    · rw [if_neg hb]
      refine ⟨_, rfl, List.forall_mem_cons.mpr ⟨by simp, fun c hc => ?_⟩, ?_⟩
      · exact List.mem_append_left _ (hmem c hc)
      · have hnew : b ∉ bs.toFinset := fun hc => hb (hmem b (mem_toFinset.mp hc))
        rw [List.toFinset_cons, Finset.card_insert_of_notMem hnew, List.length_append,
          List.length_singleton]
        omega

/-- `readi` and `writei` implement a byte array, in an operation whose blocks fit the log: the
file's blocks touched, the free map, the indirect block and that of the inode, on top of what is
listed, leave an entry of the header unused. -/
theorem writei_readi_byte_array {source : Source} {src off n : ℕ} {lh : List ℕ}
    (howned : Owned sb ∅ (s.view sb e) s.blocks)
    (hsolid : Solid sb (s.view sb e) s.blocks (s.itable e).inum)
    (hi : (s.itable e).inum < sb.ninodes) (ht : (s.itable e).d.type ≠ 0) (hheld : s.held = [])
    (hoff : off ≤ (s.itable e).d.size.toNat) (hn : off + n ≤ maxfile * bsize)
    (hsrc : source.Complete src n)
    (hfit : lh.length + (touched off n + sb.size / bpb + 3) < logblocks) :
    StoresBytes sb e source src off n s (inTransaction lh (writei sb e source src off n) s) := by
  obtain ⟨tot, s', hrun, hpost⟩ := writei_stores (s := { s with logged := [] }) howned hsolid hi ht
    hheld hoff hn hsrc
  obtain ⟨D, hD, hlogs⟩ := writei_after _ _ hrun
  have hcard := hlogs.card_le rfl
  rw [List.length_cons] at hcard
  have hroom : lh.length + s'.logged.toFinset.card < logblocks := by omega
  obtain ⟨blocks, hheader, -⟩ := logHeader_isSome hroom
  refine ⟨tot, s', ?_, hpost⟩
  unfold inTransaction
  rw [hrun]
  dsimp only
  rw [hheader, Option.isSome_some, if_pos rfl]

/-- Sixteen bytes stored at offset 32 of the root directory of a new file system, in an operation
that has logged two blocks. -/
theorem rootLoaded_byte_array : ∃ (tot : ℕ) (s' : Fs),
    inTransaction [33, 50] (writei mkfsSb 0 (.kernel (Dirent.mem ⟨2, [97]⟩)) 0 32 16) rootLoaded =
        .ok (tot : ℤ) s' ∧
      contents mkfsSb (s'.dinode mkfsSb) s'.blocks rootino =
        overwrite (contents mkfsSb (rootLoaded.view mkfsSb 0) rootLoaded.blocks rootino) 32
          (Source.bytes (.kernel (Dirent.mem ⟨2, [97]⟩)) 0 tot) := by
  obtain ⟨tot, s', hrun, -, -, hcontents, -⟩ := @writei_readi_byte_array mkfsSb rootLoaded 0
    (.kernel (Dirent.mem ⟨2, [97]⟩)) 0 32 16 [33, 50] (by rw [rootLoaded_view]; exact freshFs_owned)
    (by rw [rootLoaded_view]; exact freshFs_solid) (by decide) (by decide) rfl (by decide)
    (by decide) trivial (by decide)
  exact ⟨tot, s', hrun, hcontents⟩

/-- A write of 28 blocks, within the bounds of a file, does not fit the log: with the indirect
block, the free map and the inode it logs 31 blocks. -/
theorem writei_too_big : Owned mkfsSb ∅ (rootLoaded.view mkfsSb 0) rootLoaded.blocks ∧
    Solid mkfsSb (rootLoaded.view mkfsSb 0) rootLoaded.blocks (rootLoaded.itable 0).inum ∧
    (rootLoaded.itable 0).d.type ≠ 0 ∧ 0 + 28 * bsize ≤ maxfile * bsize ∧
    (Source.kernel fun _ => 7).Complete 0 (28 * bsize) ∧
    ∃ s', inTransaction [] (writei mkfsSb 0 (.kernel fun _ => 7) 0 0 (28 * bsize)) rootLoaded =
      .panic "too big a transaction" s' := by
  rw [rootLoaded_view]
  refine ⟨freshFs_owned, freshFs_solid, by decide, by decide, trivial, _, Outcome.eq_panic ?_⟩
  decide +kernel

/-! ## Directory entries -/

/-- An entry of a directory is written to one block. -/
theorem writeEntry_after {source : Source} {src k : ℕ} :
    After (writei sb e source src (direntSize * k) direntSize) s fun _ s' => ∃ D : List ℕ,
      D.length ≤ 2 ∧ Logs sb {b | b ∈ sb.iblock (s.itable e).inum :: D} s s' := by
  have htouched : touched (direntSize * k) direntSize = 1 := by
    unfold touched direntSize bsize
    rw [if_neg (by decide)]
    omega
  refine writei_after.mono ?_
  rintro r s' ⟨D, hlen, hlogs⟩
  rw [htouched] at hlen
  exact ⟨D, hlen, hlogs⟩

/-! ## Truncation -/

/-- The first loop of `itrunc` logs the free map. -/
theorem truncDirect_after {ks : List ℕ} (hks : ∀ k ∈ ks, k < 13)
    (haddr : ∀ k, (s.itable e).d.addr k < sb.size) :
    After (truncDirect sb e ks) s fun _ s' => Logs sb ∅ s s' ∧
      (s'.itable e).inum = (s.itable e).inum ∧
      (∀ k ∉ ks, (s'.itable e).d.addr k = (s.itable e).d.addr k) ∧
      ∀ c, ¬ InMap sb c → s'.blocks c = s.blocks c := by
  induction ks generalizing s with
  | nil => exact .pure ⟨Logs.of_eq rfl, rfl, fun _ _ => rfl, fun _ _ => rfl⟩
  | cons k ks ih =>
    rw [truncDirect]
    refine .gets_bind ?_
    have hks' : ∀ l ∈ ks, l < 13 := fun l hl => hks l (mem_cons_of_mem _ hl)
    split
    · refine (ih hks' haddr).mono ?_
      rintro u s' ⟨hlogs, hinum, hsame, hblocks⟩
      exact ⟨hlogs, hinum, fun l hl => hsame l fun h => hl (mem_cons_of_mem _ h), hblocks⟩
    · refine (bfree_after (haddr k)).bind ?_
      rintro - s1 ⟨hlogs, htab, hblocks⟩
      refine .modify_bind ?_
      have hset : ∀ l, (((s1.setD e ((s1.itable e).d.setAddr k 0)).itable) e).d.addr l =
          if l = k then 0 else (s.itable e).d.addr l := by
        intro l
        simp [Fs.setD, Fs.setInode, htab, Dinode.addr_setAddr _ (hks k mem_cons_self)]
      refine (ih hks' fun l => ?_).mono ?_
      · rw [hset]
        split
        · exact (nmeta_pos sb).trans_le Superblock.nmeta_le
        · exact haddr l
      rintro u s' ⟨hlogs', hinum, hsame, hblocks'⟩
      refine ⟨hlogs.same fun b hb => hlogs' b hb, ?_, fun l hl => ?_, fun c hc => ?_⟩
      · rw [hinum]
        simp [Fs.setD, Fs.setInode, htab]
      · obtain ⟨hne, hl⟩ := not_or.mp fun h => hl (mem_cons.mpr h)
        rw [hsame l hl, hset, if_neg hne]
      · exact (hblocks' c hc).trans (hblocks c hc)

/-- The loop over the indirect block logs the free map. -/
theorem truncEntries_after {data : Block} {js : List ℕ}
    (hdata : ∀ j ∈ js, data.entry j < sb.size) :
    After (truncEntries sb data js) s fun _ s' => Logs sb ∅ s s' ∧ s'.itable = s.itable := by
  induction js generalizing s with
  | nil => exact .pure ⟨Logs.of_eq rfl, rfl⟩
  | cons j js ih =>
    rw [truncEntries]
    have hrest : ∀ l ∈ js, data.entry l < sb.size := fun l hl => hdata l (mem_cons_of_mem _ hl)
    split
    · exact ih hrest
    · refine (bfree_after (hdata j mem_cons_self)).bind ?_
      rintro - s1 ⟨hlogs, htab, -⟩
      refine (ih hrest).mono ?_
      rintro u s' ⟨hlogs', htab'⟩
      exact ⟨hlogs.same hlogs', htab'.trans htab⟩

/-- Slots are empty or lie in the file system. -/
theorem Owned.slot_lt {X : Set ℕ} {V : ℕ → Dinode} (h : Owned sb X V s.blocks) (i k : ℕ) :
    slotOf sb V s.blocks i k < sb.size := by
  by_cases hne : slotOf sb V s.blocks i k = 0
  · rw [hne]
    exact (nmeta_pos sb).trans_le Superblock.nmeta_le
  · exact (h.range i k hne).2

/-- `itrunc` logs the free map and the block of the record. -/
theorem itrunc_after {V : ℕ → Dinode} {i : ℕ} (h : Owned sb ∅ V s.blocks)
    (hV : V i = (s.itable e).d) (hi : i < sb.ninodes) (ht : (V i).type ≠ 0) :
    After (itrunc sb e) s fun _ s' =>
      Logs sb {sb.iblock (s.itable e).inum} s s' := by
  have haddr : ∀ k, (s.itable e).d.addr k < sb.size := by
    intro k
    by_cases hk : k ≤ ndirect
    · have hslot : slotOf sb V s.blocks i k = (s.itable e).d.addr k := by
        rw [slotOf_alloc hi ht, Dinode.slot, if_pos hk, hV]
      rw [← hslot]
      exact h.slot_lt i k
    · unfold ndirect at hk
      rw [Dinode.addr, dif_neg (by omega)]
      exact (nmeta_pos sb).trans_le Superblock.nmeta_le
  have hentry : (s.itable e).d.addr ndirect ≠ 0 → ∀ j ∈ List.range nindirect,
      (s.blocks ((s.itable e).d.addr ndirect)).entry j < sb.size := by
    intro hne j hj
    have hslot : slotOf sb V s.blocks i (ndirect + 1 + j) =
        (s.blocks ((s.itable e).d.addr ndirect)).entry j := by
      have hin : ¬ ((s.itable e).d.addr ndirect = 0 ∨ nslots ≤ ndirect + 1 + j) := by
        have := List.mem_range.mp hj
        unfold nslots
        omega
      rw [slotOf_alloc hi ht, Dinode.slot, if_neg (by omega), hV, if_neg hin,
        Nat.add_sub_cancel_left]
    rw [← hslot]
    exact h.slot_lt i _
  have hdata : (s.itable e).d.addr ndirect ≠ 0 → ¬ InMap sb ((s.itable e).d.addr ndirect) := by
    intro hne hmap
    rw [← hV] at hne hmap
    exact absurd hmap.2 (not_lt.mpr (h.indirect_used hi ht hne).1)
  unfold itrunc
  have hrange : ∀ k ∈ List.range ndirect, k < 13 := by
    intro k hk
    have := List.mem_range.mp hk
    unfold ndirect at this
    omega
  refine (truncDirect_after hrange haddr).bind ?_
  rintro - s1 ⟨hlogs, hinum, hsame, hblocks⟩
  have hind := hsame ndirect (by simp)
  refine .bind (Q := fun _ s' => Logs sb ∅ s1 s' ∧
    (s'.itable e).inum = (s1.itable e).inum) ?_ ?_
  · unfold truncIndirect
    refine .gets_bind ?_
    rw [hind]
    split
    · exact .pure ⟨Logs.of_eq rfl, rfl⟩
    rename_i hne
    refine fsRead_after.bind ?_
    rintro bp s2 ⟨-, hbp, hlog2, htab2, -⟩
    refine (truncEntries_after fun j hj => ?_).bind ?_
    · rw [hbp, hblocks _ (hdata hne)]
      exact hentry hne j hj
    rintro - s3 ⟨hlogs3, htab3⟩
    refine .bind (Q := fun _ s' => s'.logged = s3.logged ∧ s'.itable = s3.itable) ?_ ?_
    · intro u s' h
      cases h
      exact ⟨rfl, rfl⟩
    rintro - s4 ⟨hlog4, htab4⟩
    refine (bfree_after (haddr ndirect)).bind ?_
    rintro - s5 ⟨hlogs5, htab5, -⟩
    intro u s' h
    cases h
    refine ⟨?_, ?_⟩
    · exact (((Logs.of_eq hlog2).same hlogs3).same (Logs.of_eq hlog4)).same hlogs5
    · simp [Fs.setD, Fs.setInode, htab5, htab4, htab3, htab2]
  rintro - s2 ⟨hlogs2, hinum2⟩
  refine .modify_bind (iupdate_after.mono ?_)
  rintro - s' ⟨hlogs', -⟩
  have hnum : (((s2.setD e { (s2.itable e).d with size := 0 }).itable) e).inum =
      (s.itable e).inum := by
    simp [Fs.setD, Fs.setInode, hinum2, hinum]
  rw [hnum] at hlogs'
  exact ((hlogs.same hlogs2).mono (Set.empty_subset _)).same fun b hb => hlogs' b hb

end RiscvKernel
