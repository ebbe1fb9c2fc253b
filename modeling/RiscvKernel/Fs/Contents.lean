import RiscvKernel.Fs.Image

/-!
# Reading files

On a file without holes `readi` allocates nothing and delivers the bytes of the file.
Together with `writei`, the two implement a byte array.
-/

namespace RiscvKernel

open Threads Function
open Threads.Seq (Runs)

/-- The length of what `readi` delivers of a file of `size` bytes: nothing if the offset
is beyond the end or the end of the range does not fit in 32 bits. -/
def readLen (size off n : ℕ) : ℕ :=
  if off > size ∨ 2 ^ 32 ≤ off + n then 0 else min n (size - off)

section Read

variable {sb : Superblock} {V : ℕ → Dinode} {i off : ℕ} {e : InodeId} {s : Fs}

/-- The loop of `readi`, after `tot` bytes of a file without holes: nothing is allocated, and
the bytes of the file are delivered unless the copy fails. -/
theorem readiLoop_runs {target : Target} {dst n fuel tot : ℕ} {mem : Mem}
    (hf : AtFile sb V i e s) (hfuel : n ≤ tot + fuel) (hn : tot ≤ n)
    (hmax : off + n ≤ maxfile * bsize)
    (hmap : ∀ pos, off ≤ pos → pos < off + n → slotOf sb V s.blocks i (bnSlot (pos / bsize)) ≠ 0) :
    Runs (fun _ => False) (readiLoop sb e target n fuel tot (off + tot) (dst + tot)
      (Bytes.blit mem dst tot fun k => fileByte sb V s.blocks i (off + k))) s fun r s' => s' = s ∧
        (r.1 = -1 ∧ ¬ target.Complete dst n ∧
            (target.Complete dst 1 → r.2 dst = fileByte sb V s.blocks i off) ∨
          r = ((n : ℤ), Bytes.blit mem dst n fun k => fileByte sb V s.blocks i (off + k))) := by
  induction fuel generalizing tot with
  | zero =>
    have : tot = n := by omega
    subst this
    exact .pure ⟨rfl, .inr rfl⟩
  | succ fuel ih =>
    rw [readiLoop]
    split
    · rename_i hlt
      have hbn : (off + tot) / bsize < maxfile := by
        rw [Nat.div_lt_iff_lt_mul (by decide)]
        omega
      have hne := hmap (off + tot) (by omega) (by omega)
      refine .of_eq_bind (bmap_eq hf hbn hne) ?_
      rw [if_neg hne]
      refine .of_eq_bind (fsRead_eq (by simp [hf.held])) ?_
      generalize hm : min (n - tot) (bsize - (off + tot) % bsize) = m
      have hoff : (off + tot) % bsize < bsize := Nat.mod_lt _ (by decide)
      refine .of_eq_bind (a := ()) (t := s) ?_ ?_
      · rw [fsRelse, Seq.modify_apply, Fs.release_unchanged]
      · have hbyte : ∀ k < m, (s.blocks (slotOf sb V s.blocks i
            (bnSlot ((off + tot) / bsize)))).byte ((off + tot) % bsize + k) =
              fileByte sb V s.blocks i (off + (tot + k)) := by
          intro k hk
          have hdiv := div_eq_of_chunk (p := off + tot) (q := off + (tot + k)) (c := m)
            (by omega) (by omega) (by omega)
          unfold fileByte
          rw [hdiv, dataAt_of_ne hne]
          congr 1
          have := Nat.div_add_mod (off + (tot + k)) bsize
          have := Nat.div_add_mod (off + tot) bsize
          rw [hdiv] at *
          omega
        have hle := (target.copyout_spec (dst + tot) m).1
        split
        · rename_i hok
          have hrest := @ih (tot + m) (by omega) (by omega)
          rw [(target.copyout_spec _ _).2 hok, Bytes.blit_append mem hbyte, Nat.add_assoc,
            Nat.add_assoc]
          exact hrest
        · rename_i hfail
          refine .pure ⟨rfl, .inl ⟨rfl, fun hall => hfail ?_, fun hone => ?_⟩⟩
          · rw [Target.copyout_complete (hall.sub (by omega))]
          -- The first byte is stored in the first round, whatever fails then.
          · dsimp only
            rw [Bytes.blit_append mem fun k hk => hbyte k (by omega)]
            refine (Bytes.blit_inside _ _ le_rfl ?_).trans (by rw [Nat.sub_self, Nat.add_zero])
            rcases Nat.eq_zero_or_pos tot with rfl | hpos
            · have := hone.copyout_pos (by omega : 0 < m)
              rw [Nat.add_zero, Nat.zero_add]
              omega
            · omega
    · have : tot = n := by omega
      subst this
      exact .pure ⟨rfl, .inr rfl⟩

/-- `readi` of a file without holes: nothing is allocated, and the bytes of the file are
delivered unless the copy fails. -/
theorem readi_runs {target : Target} {dst n : ℕ} {mem : Mem}
    (hf : AtFile sb V i e s) (hsolid : Solid sb V s.blocks i) (hn : n < 2 ^ 32) :
    Runs (fun _ => False) (readi sb e target dst off n mem) s fun r s' => s' = s ∧
      (r.1 = -1 ∧ ¬ target.Complete dst (readLen (V i).size.toNat off n) ∧
          (target.Complete dst 1 → r.2 dst = fileByte sb V s.blocks i off) ∨
        r = (((readLen (V i).size.toNat off n : ℕ) : ℤ),
          Bytes.blit mem dst (readLen (V i).size.toNat off n)
            fun k => fileByte sb V s.blocks i (off + k))) := by
  have hzero : ∀ f : ℕ → UInt8, Bytes.blit mem dst 0 f = mem := by
    intro f
    funext j
    exact Bytes.blit_outside _ _ (by omega)
  obtain ⟨hle, hmap⟩ := hsolid
  unfold readi readLen
  refine .gets_bind ?_
  rw [← hf.view]
  split
  · rename_i hbad
    rw [if_pos (by omega)]
    exact .pure ⟨rfl, .inr (by rw [hzero]; rfl)⟩
  · rename_i hgood
    rw [if_neg (by omega)]
    have hlen : (if off + n > (V i).size.toNat then (V i).size.toNat - off else n) =
        min n ((V i).size.toNat - off) := by
      split <;> omega
    rw [hlen]
    generalize hN : min n ((V i).size.toNat - off) = N
    have hread := @readiLoop_runs sb V i off e s target dst N N 0 mem hf (by omega)
      (by omega) (by omega) fun pos _ hpos => hmap _ (by
        have := Nat.div_mul_le_self pos bsize
        omega)
    rw [hzero] at hread
    exact hread

end Read

/-! ## Files as byte arrays -/

/-- The inode records, with that of the inode in memory at `e` as it is there. -/
def Fs.view (s : Fs) (sb : Superblock) (e : InodeId) : ℕ → Dinode :=
  update (s.dinode sb) (s.itable e).inum (s.itable e).d

/-- The contents of file `i`. -/
def contents (sb : Superblock) (V : ℕ → Dinode) (blocks : ℕ → Block) (i : ℕ) : List UInt8 :=
  (List.range (V i).size.toNat).map (fileByte sb V blocks i)

/-- The `n` bytes of a source from `src` on. -/
def Source.bytes (source : Source) (src n : ℕ) : List UInt8 :=
  (List.range n).map fun k => source.mem (src + k)

/-- Replace the bytes from offset `off` on by `bs`, extending the array if needed. -/
def overwrite (c : List UInt8) (off : ℕ) (bs : List UInt8) : List UInt8 :=
  c.take off ++ bs ++ c.drop (off + bs.length)

/-- The bytes `[off, off + n)` of an array, as far as they exist; none if the end of the
range does not fit in 32 bits. -/
def readRange (c : List UInt8) (off n : ℕ) : List UInt8 :=
  if 2 ^ 32 ≤ off + n then [] else (c.drop off).take n

section ByteArray

variable {sb : Superblock} {V : ℕ → Dinode} {i off n : ℕ} {e : InodeId} {s : Fs}
  {blocks : ℕ → Block}

@[simp] theorem length_contents : (contents sb V blocks i).length = (V i).size.toNat := by
  simp [contents]

/-- How much `readi` delivers. -/
theorem length_readRange :
    (readRange (contents sb V blocks i) off n).length = readLen (V i).size.toNat off n := by
  unfold readRange readLen
  split
  · rename_i hwrap
    rw [if_pos (Or.inr hwrap), List.length_nil]
  · rename_i hwrap
    rw [List.length_take, List.length_drop, length_contents]
    split <;> omega

/-- Byte `k` of the range. -/
theorem getD_readRange {k : ℕ} (hk : k < readLen (V i).size.toNat off n) :
    (readRange (contents sb V blocks i) off n).getD k 0 = fileByte sb V blocks i (off + k) := by
  unfold readLen at hk
  split at hk
  · omega
  · rename_i hfit
    unfold readRange contents
    rw [if_neg fun hc => hfit (Or.inr hc), List.getD_eq_getElem?_getD,
      List.getElem?_eq_getElem (by simp; omega), Option.getD_some]
    simp

/-- A file whose bytes are replaced. -/
theorem contents_eq_overwrite {V' : ℕ → Dinode} {blocks' : ℕ → Block} {source : Source}
    {src tot : ℕ} (hoff : off ≤ (V i).size.toNat)
    (hsize : (V' i).size.toNat = max (V i).size.toNat (off + tot))
    (hbytes : ∀ pos, fileByte sb V' blocks' i pos = if off ≤ pos ∧ pos < off + tot then
      source.mem (src + (pos - off)) else fileByte sb V blocks i pos) :
    contents sb V' blocks' i = overwrite (contents sb V blocks i) off (source.bytes src tot) := by
  have hmap : ∀ (m pos : ℕ) (f : ℕ → UInt8), ((List.range m).map f)[pos]? =
      if pos < m then some (f pos) else none := by
    intro m pos f
    split <;> simp [*]
  apply List.ext_getElem?
  intro pos
  unfold overwrite Source.bytes contents
  simp only [List.getElem?_append, List.getElem?_take, List.getElem?_drop, List.length_append,
    List.length_take, List.length_map, List.length_range, hmap, hsize, hbytes]
  rw [min_eq_left hoff]
  by_cases h1 : pos < off
  · have h2 : pos < off + tot := by omega
    have h3 : pos < (V i).size.toNat := by omega
    have h4 : pos < max (V i).size.toNat (off + tot) := by omega
    simp [h1, h2, h3, h4]
  · by_cases h2 : pos < off + tot
    · have h3 : pos - off < tot := by omega
      simp [h1, h2, h3]
    · have h3 : off + tot + (pos - (off + tot)) = pos := by omega
      have h4 : (pos < max (V i).size.toNat (off + tot)) ↔ pos < (V i).size.toNat := by omega
      simp [h2, h3, h4]

/-- The outcome of a `writei` of `n` bytes at offset `off` that treats the file at `e` as an
array of bytes. It stores the first `tot` bytes of its source and stops early only if `balloc`
returns 0; the inode on disk is the one in memory and the other files stay. A `readi` that
follows delivers exactly the bytes of the range asked for. -/
def StoresBytes (sb : Superblock) (e : InodeId) (source : Source) (src off n : ℕ) (s : Fs)
    (r : Outcome Fs ℤ) : Prop :=
  ∃ (tot : ℕ) (s' : Fs), r = .ok (tot : ℤ) s' ∧
    tot ≤ n ∧ (tot < n → s.denied < s'.denied) ∧
    contents sb (s'.dinode sb) s'.blocks (s.itable e).inum =
      overwrite (contents sb (s.view sb e) s.blocks (s.itable e).inum) off
        (source.bytes src tot) ∧
    (s'.itable e).d.size.toNat = max (s.itable e).d.size.toNat (off + tot) ∧
    s'.dinode sb (s.itable e).inum = (s'.itable e).d ∧
    (∀ j < sb.ninodes, j ≠ (s.itable e).inum → s'.dinode sb j = s.dinode sb j ∧
      contents sb (s'.dinode sb) s'.blocks j = contents sb (s.view sb e) s.blocks j) ∧
    ∀ (target : Target) (dst off' n' : ℕ) (mem : Mem) (bs : List UInt8), n' < 2 ^ 32 →
      bs = readRange (contents sb (s'.dinode sb) s'.blocks (s.itable e).inum) off' n' →
      target.Complete dst bs.length →
      readi sb e target dst off' n' mem s' =
        .ok ((bs.length : ℤ), Bytes.blit mem dst bs.length fun k => bs.getD k 0) s'

/-- From any state with the block ownership invariant (seen through the inode in memory) in
which the file has no holes, `writei` treats the file as an array of bytes. -/
theorem writei_stores {source : Source} {src : ℕ} (howned : Owned sb ∅ (s.view sb e) s.blocks)
    (hsolid : Solid sb (s.view sb e) s.blocks (s.itable e).inum)
    (hi : (s.itable e).inum < sb.ninodes) (ht : (s.itable e).d.type ≠ 0) (hheld : s.held = [])
    (hoff : off ≤ (s.itable e).d.size.toNat) (hn : off + n ≤ maxfile * bsize)
    (hsrc : source.Complete src n) :
    StoresBytes sb e source src off n s (writei sb e source src off n s) := by
  unfold StoresBytes
  generalize hinum : (s.itable e).inum = i at *
  have hV : s.view sb e i = (s.itable e).d := by
    rw [Fs.view, hinum, update_self]
  have hmax : maxfile * bsize < 2 ^ 32 := by decide
  obtain ⟨r, s', hrun, hpost⟩ := (@writei_runs sb _ i off e s source src n
    ⟨howned, hV, hi, hV ▸ ht, hheld⟩ hinum (by omega)).returns
  rcases hpost with ⟨-, -, hbad⟩ | ⟨tot, c, d, hr, htot, -, -, -, -, hw, hcomp⟩
  · omega
  obtain ⟨rfl, -, hdenied⟩ := hcomp hsrc
  rw [Nat.add_zero] at hw
  have hrecords : ∀ j < sb.ninodes, s'.dinode sb j = update (s.view sb e) i d j := by
    intro j hj
    rw [hw.records j hj, Fs.view, hinum, update_idem]
  have hd : (s'.itable e).d = d := by
    rw [hw.itable, update_self]
  have hnew : s'.dinode sb i = d := by
    rw [hrecords i hi, update_self]
  have hbyte : ∀ j pos, fileByte sb (s'.dinode sb) s'.blocks j pos =
      fileByte sb (update (s.view sb e) i d) s'.blocks j pos :=
    fun j pos => fileByte_congr_records hrecords j pos
  have hsolid' : Solid sb (s'.dinode sb) s'.blocks i :=
    (hw.solid hV hoff le_rfl (by omega) hsolid).congr_records hrecords hi
  refine ⟨tot, s', by rw [hrun, hr], htot, fun hlt => (hdenied hlt).1, ?_, by rw [hd, hw.size],
    by rw [hnew, hd], ?_, ?_⟩
  · refine contents_eq_overwrite (hV ▸ hoff) ?_ fun pos => ?_
    · rw [hnew, hw.size, hV]
    · rw [hbyte, hw.bytes]
  · intro j hj hne
    have hsame : s'.dinode sb j = s.view sb e j := by
      rw [hrecords j hj, update_of_ne hne]
    refine ⟨by rw [hw.records j hj, update_of_ne hne], ?_⟩
    unfold contents
    rw [hsame]
    refine List.map_congr_left fun pos _ => ?_
    rw [hbyte]
    unfold fileByte
    rw [hw.data j _ hne (bnSlot_ne_ndirect _)]
  · rintro target dst off' n' mem bs hn' rfl hdst
    have hV' : s'.dinode sb i = (s'.itable e).d := by rw [hnew, hd]
    have ht' : (s'.dinode sb i).type ≠ 0 := by
      rw [hnew, hw.fields]
      exact ht
    obtain ⟨r', s'', hread, rfl, hpost⟩ := (@readi_runs sb _ i off' e s' target dst n' mem
      ⟨hw.owned.congr_records hrecords, hV', hi, ht', hw.held.trans hheld⟩ hsolid' hn').returns
    rw [length_readRange] at hdst ⊢
    rcases hpost with ⟨-, hno, -⟩ | rfl
    · exact absurd hdst hno
    · rw [hread, Bytes.blit_congr mem fun k hk => (getD_readRange hk).symm]

end ByteArray

/-- The image of `mkfs` with the root directory in memory. -/
def rootLoaded : Fs := freshFs.setInode 0 ⟨rootino, 1, true, rootDinode⟩

/-- The root directory in memory is the one on disk. -/
theorem rootLoaded_view : rootLoaded.view mkfsSb 0 = freshFs.dinode mkfsSb := by
  have hroot : freshFs.dinode mkfsSb rootino = rootDinode := by
    rw [freshFs_dinode (by decide), if_pos rfl]
  have : rootLoaded.view mkfsSb 0 =
      update (freshFs.dinode mkfsSb) rootino rootDinode := rfl
  rw [this, ← hroot, update_eq_self]

end RiscvKernel
