import RiscvKernel.Kernel.Model
import RiscvKernel.Fs.Logged

/-!
# What a process can see of the file system

Of a file one sees the fields of its inode and its bytes, but not where they are stored. `Clean`
describes a file system on which no operation is under way, by what can be seen of every inode,
the references to the inodes in memory, and the blocks that the current operation may have
logged. Each function here is specified by its effect on these.
-/

namespace RiscvKernel

open Threads Function

/-- What can be seen of an inode. -/
structure Seen where
  /-- File type. -/
  type : BitVec 16
  /-- Major device number. -/
  major : BitVec 16
  /-- Minor device number. -/
  minor : BitVec 16
  /-- Number of links. -/
  nlink : BitVec 16
  /-- Size. -/
  size : BitVec 32
  /-- The bytes. -/
  bytes : List UInt8

/-- What can be seen of an inode with record `d`. -/
def Seen.of (d : Dinode) (bytes : List UInt8) : Seen :=
  ⟨d.type, d.major, d.minor, d.nlink, d.size, bytes⟩

/-- What can be seen of inode `i`, if it is allocated. -/
def Fs.look (s : Fs) (sb : Superblock) (i : ℕ) : Option Seen :=
  if (s.dinode sb i).type = 0 then none
  else some (Seen.of (s.dinode sb i) (contents sb (s.dinode sb) s.blocks i))

/-- What is known about a file system between two sections. -/
structure Facts where
  /-- What can be seen of the inodes. -/
  seen : ℕ → Option Seen
  /-- The reference counts of the inodes in memory. -/
  ref : InodeId → ℤ
  /-- The inode numbers of those in use. -/
  inum : InodeId → ℕ
  /-- Inodes in memory that have been read from disk. -/
  loaded : Set InodeId
  /-- The blocks outside the free map that may have been logged. -/
  log : Set ℕ

namespace Facts

/-- Inode `i` now looks like `x`, and blocks of `B` have been logged. -/
def see (G : Facts) (i : ℕ) (x : Option Seen) (B : Set ℕ) : Facts :=
  { G with seen := update G.seen i x, log := G.log ∪ B }

/-- The inode at `e` has been read from disk. -/
def load (G : Facts) (e : InodeId) : Facts := { G with loaded := insert e G.loaded }

/-- A new reference to inode `i` at `e`. -/
def got (G : Facts) (e : InodeId) (i : ℕ) : Facts :=
  { G with
    ref := update G.ref e (G.ref e + 1)
    inum := update G.inum e i
    loaded := {x ∈ G.loaded | 0 < G.ref x} }

/-- The inode at `e` has to be read again. -/
def unload (G : Facts) (e : InodeId) : Facts := { G with loaded := G.loaded \ {e} }

/-- A reference to the inode at `e` has been dropped. -/
def put (G : Facts) (e : InodeId) : Facts := { G with ref := update G.ref e (G.ref e - 1) }

end Facts

/-- No operation is under way. -/
structure Clean (sb : Superblock) (s : Fs) (G : Facts) : Prop where
  /-- Block ownership holds for the records on disk. -/
  owned : Owned sb ∅ (s.dinode sb) s.blocks
  /-- No buffer is held. -/
  held : s.held = []
  /-- Files have no holes. -/
  solid : ∀ i < sb.ninodes, (s.dinode sb i).type ≠ 0 → Solid sb (s.dinode sb) s.blocks i
  /-- Directory entries name inodes. -/
  names : ∀ i < sb.ninodes, (s.dinode sb i).type = tDir → ∀ k de,
    entry sb (s.dinode sb) s.blocks i k = some de → de.inum < sb.ninodes
  /-- What can be seen. -/
  seen : ∀ i < sb.ninodes, s.look sb i = G.seen i
  /-- The references. -/
  ref : ∀ e, (s.itable e).ref = G.ref e
  /-- They are counted up from 0. -/
  nonneg : ∀ e, 0 ≤ G.ref e
  /-- The inode numbers. -/
  inum : ∀ e, 0 < G.ref e → (s.itable e).inum = G.inum e ∧ G.inum e < sb.ninodes
  /-- No inode is in memory twice. -/
  unique : ∀ e e', 0 < G.ref e → 0 < G.ref e' → G.inum e = G.inum e' → e = e'
  /-- An inode that has been read is as on disk. -/
  copy : ∀ e, 0 < G.ref e → (s.itable e).valid = true →
    (s.itable e).d = s.dinode sb (G.inum e) ∧ (s.dinode sb (G.inum e)).type ≠ 0
  /-- The inodes that have been read. -/
  valid : ∀ e ∈ G.loaded, 0 < G.ref e → (s.itable e).valid = true
  /-- The blocks logged. -/
  logged : ∀ b ∈ s.logged, InMap sb b ∨ b ∈ G.log

section Look

variable {sb : Superblock} {s s' : Fs} {i j : ℕ}

/-- The bytes of a file depend on its size and its bytes. -/
theorem contents_congr {V V' : ℕ → Dinode} {blocks blocks' : ℕ → Block}
    (hsize : (V' i).size = (V i).size)
    (h : ∀ pos, fileByte sb V' blocks' i pos = fileByte sb V blocks i pos) :
    contents sb V' blocks' i = contents sb V blocks i := by
  unfold contents
  rw [hsize]
  exact List.map_congr_left fun pos _ => h pos

/-- The records depend on the blocks. -/
theorem Fs.dinode_congr (h : s'.blocks = s.blocks) : s'.dinode sb = s.dinode sb := by
  funext j
  unfold Fs.dinode
  rw [h]

/-- An allocated inode is seen. -/
theorem Fs.look_of_type (h : (s.dinode sb i).type ≠ 0) :
    s.look sb i = some (Seen.of (s.dinode sb i) (contents sb (s.dinode sb) s.blocks i)) :=
  if_neg h

/-- A free inode is not seen. -/
theorem Fs.look_eq_none : s.look sb i = none ↔ (s.dinode sb i).type = 0 := by
  unfold Fs.look
  split
  · rename_i h
    exact ⟨fun _ => h, fun _ => rfl⟩
  · rename_i h
    exact ⟨fun hnone => absurd hnone (Option.some_ne_none _), fun heq => absurd heq h⟩

/-- The parts of what can be seen. -/
theorem Fs.look_eq_some {x : Seen} (h : s.look sb i = some x) :
    (s.dinode sb i).type ≠ 0 ∧ (s.dinode sb i).type = x.type ∧ (s.dinode sb i).nlink = x.nlink ∧
      (s.dinode sb i).size = x.size ∧ contents sb (s.dinode sb) s.blocks i = x.bytes := by
  unfold Fs.look at h
  split at h
  · cases h
  · rename_i hne
    cases h
    exact ⟨hne, rfl, rfl, rfl, rfl⟩

/-- At most inode `i` differs. -/
structure Replaced (sb : Superblock) (i : ℕ) (s s' : Fs) : Prop where
  /-- Block ownership holds. -/
  owned : Owned sb ∅ (s'.dinode sb) s'.blocks
  /-- No buffer is held. -/
  held : s'.held = []
  /-- The other records stay. -/
  records : ∀ j < sb.ninodes, j ≠ i → s'.dinode sb j = s.dinode sb j
  /-- The other inodes keep their slots. -/
  slots : ∀ j l, j ≠ i →
    slotOf sb (s'.dinode sb) s'.blocks j l = slotOf sb (s.dinode sb) s.blocks j l
  /-- The other inodes keep their contents. -/
  data : ∀ j l, j ≠ i → l ≠ ndirect →
    dataAt sb (s'.dinode sb) s'.blocks j l = dataAt sb (s.dinode sb) s.blocks j l

/-- A changed file is replaced as a whole. -/
theorem Changed.replaced {e : InodeId} {d : Dinode} (h : Changed sb (s.dinode sb) i e s s' d)
    (hheld : s.held = []) : Replaced sb i s s' := by
  have hslot : ∀ j l, slotOf sb (s'.dinode sb) s'.blocks j l =
      slotOf sb (update (s.dinode sb) i d) s'.blocks j l :=
    fun j l => slotOf_congr_records h.records j l
  constructor
  · exact h.owned.congr_records h.records
  · exact h.held.trans hheld
  · intro j hj hne
    rw [h.records j hj, update_of_ne hne]
  · intro j l hne
    rw [hslot]
    exact h.slots j l hne
  · intro j l hne hl
    rw [← h.data j l hne hl]
    unfold dataAt
    rw [hslot]

/-- What can be seen of the inode that has been changed. -/
theorem Changed.look {e : InodeId} {d : Dinode} (h : Changed sb (s.dinode sb) i e s s' d)
    (hi : i < sb.ninodes) (ht : d.type ≠ 0) : s'.look sb i =
      some (Seen.of d (contents sb (update (s.dinode sb) i d) s'.blocks i)) := by
  have hd : s'.dinode sb i = d := by rw [h.records i hi, update_self]
  have hbytes : contents sb (s'.dinode sb) s'.blocks i =
      contents sb (update (s.dinode sb) i d) s'.blocks i :=
    contents_congr (by rw [h.records i hi]) fun pos => fileByte_congr_records h.records i pos
  rw [Fs.look_of_type (by rwa [hd]), hd, hbytes]

theorem Replaced.trans {t : Fs} (h : Replaced sb i s s') (h' : Replaced sb i s' t) :
    Replaced sb i s t := by
  constructor
  · exact h'.owned
  · exact h'.held
  · intro j hj hne
    rw [h'.records j hj hne, h.records j hj hne]
  · intro j l hne
    rw [h'.slots j l hne, h.slots j l hne]
  · intro j l hne hl
    rw [h'.data j l hne hl, h.data j l hne hl]

/-- What is on disk does not depend on the inodes in memory. -/
theorem Replaced.congr {t : Fs} (h : Replaced sb i s s') (hblocks : t.blocks = s'.blocks)
    (hheld : t.held = s'.held) : Replaced sb i s t := by
  have hrecords : t.dinode sb = s'.dinode sb := Fs.dinode_congr hblocks
  constructor
  · rw [hrecords, hblocks]
    exact h.owned
  · exact hheld.trans h.held
  · rw [hrecords]
    exact h.records
  · rw [hrecords, hblocks]
    exact h.slots
  · rw [hrecords, hblocks]
    exact h.data

/-- Other files keep their bytes. -/
theorem Replaced.fileByte (h : Replaced sb i s s') (hne : j ≠ i) (pos : ℕ) :
    fileByte sb (s'.dinode sb) s'.blocks j pos =
      RiscvKernel.fileByte sb (s.dinode sb) s.blocks j pos := by
  unfold RiscvKernel.fileByte
  rw [h.data j _ hne (bnSlot_ne_ndirect _)]

/-- The other inodes look as before. -/
theorem Replaced.look (h : Replaced sb i s s') (hj : j < sb.ninodes) (hne : j ≠ i) :
    s'.look sb j = s.look sb j := by
  have hcontents : contents sb (s'.dinode sb) s'.blocks j =
      contents sb (s.dinode sb) s.blocks j :=
    contents_congr (by rw [h.records j hj hne]) fun pos => h.fileByte hne pos
  unfold Fs.look
  rw [h.records j hj hne, hcontents]

/-- Other files get no holes. -/
theorem Replaced.solid (h : Replaced sb i s s') (hj : j < sb.ninodes) (hne : j ≠ i)
    (hsolid : Solid sb (s.dinode sb) s.blocks j) : Solid sb (s'.dinode sb) s'.blocks j := by
  unfold Solid
  simp only [h.records j hj hne, h.slots j _ hne]
  exact hsolid

/-- Other directories keep their entries. -/
theorem Replaced.entry (h : Replaced sb i s s') (hj : j < sb.ninodes) (hne : j ≠ i) (k : ℕ) :
    entry sb (s'.dinode sb) s'.blocks j k = RiscvKernel.entry sb (s.dinode sb) s.blocks j k :=
  entry_congr (by rw [h.records j hj hne]) (fun pos => h.fileByte hne pos) k

end Look

namespace Clean

variable {sb : Superblock} {s s' : Fs} {G : Facts} {e : InodeId} {i : ℕ} {B : Set ℕ}

/-- More blocks may have been logged. -/
theorem mono (h : Clean sb s G) (hB : G.log ⊆ B) : Clean sb s { G with log := B } :=
  ⟨h.owned, h.held, h.solid, h.names, h.seen, h.ref, h.nonneg, h.inum, h.unique, h.copy, h.valid,
    fun b hb => (h.logged b hb).imp_right fun hmem => hB hmem⟩

/-- An inode that has been read is in memory as on disk. -/
theorem copy_of_loaded (h : Clean sb s G) (he : 0 < G.ref e) (hl : e ∈ G.loaded) :
    (s.itable e).d = s.dinode sb (G.inum e) ∧ (s.dinode sb (G.inum e)).type ≠ 0 :=
  h.copy e he (h.valid e hl he)

/-- One inode has been replaced, on disk and in memory. -/
theorem replace {L : Set InodeId} (h : Clean sb s G) (hr : Replaced sb i s s')
    (hsolid : (s'.dinode sb i).type ≠ 0 → Solid sb (s'.dinode sb) s'.blocks i)
    (hnames : (s'.dinode sb i).type = tDir → ∀ k de,
      entry sb (s'.dinode sb) s'.blocks i k = some de → de.inum < sb.ninodes)
    (htable : ∀ e, (s'.itable e).ref = (s.itable e).ref ∧ (s'.itable e).inum = (s.itable e).inum)
    (hvalid : ∀ e ∈ L, 0 < G.ref e → (s'.itable e).valid = true)
    (hcopy : ∀ e, 0 < G.ref e → (s'.itable e).valid = true →
      (s'.itable e).d = s'.dinode sb (G.inum e) ∧ (s'.dinode sb (G.inum e)).type ≠ 0)
    (hlogs : Logs sb B s s') :
    Clean sb s' { G.see i (s'.look sb i) B with loaded := L } := by
  constructor
  · exact hr.owned
  · exact hr.held
  · intro j hj ht
    by_cases hne : j = i
    · rw [hne] at ht ⊢
      exact hsolid ht
    · rw [hr.records j hj hne] at ht
      exact hr.solid hj hne (h.solid j hj ht)
  · intro j hj ht k de hde
    by_cases hne : j = i
    · rw [hne] at ht hde
      exact hnames ht k de hde
    · rw [hr.records j hj hne] at ht
      rw [hr.entry hj hne] at hde
      exact h.names j hj ht k de hde
  · intro j hj
    change s'.look sb j = update G.seen i (s'.look sb i) j
    by_cases hne : j = i
    · rw [hne, update_self]
    · rw [update_of_ne hne, hr.look hj hne, h.seen j hj]
  · intro e
    rw [(htable e).1]
    exact h.ref e
  · exact h.nonneg
  · intro e he
    rw [(htable e).2]
    exact h.inum e he
  · exact h.unique
  · exact hcopy
  · exact hvalid
  · intro b hb
    rcases hlogs b hb with hold | hmap | hnew
    · exact (h.logged b hold).imp_right .inl
    · exact .inl hmap
    · exact .inr (.inr hnew)

/-- A function has changed the inode at `e`. -/
theorem change {d : Dinode} (h : Clean sb s G) (he : 0 < G.ref e)
    (hc : Changed sb (s.dinode sb) (G.inum e) e s s' d) (ht : d.type ≠ 0)
    (hsolid : Solid sb (update (s.dinode sb) (G.inum e) d) s'.blocks (G.inum e))
    (hnames : d.type = tDir → ∀ k de,
      entry sb (update (s.dinode sb) (G.inum e) d) s'.blocks (G.inum e) k = some de →
        de.inum < sb.ninodes)
    (hlogs : Logs sb B s s') :
    Clean sb s' (G.see (G.inum e) (s'.look sb (G.inum e)) B) := by
  obtain ⟨hinum, hi⟩ := h.inum e he
  have hr := hc.replaced h.held
  have hd : s'.dinode sb (G.inum e) = d := by rw [hc.records _ hi, update_self]
  have htable : ∀ x, x ≠ e → s'.itable x = s.itable x := by
    intro x hx
    rw [hc.itable, update_of_ne hx]
  have hself : s'.itable e = { s.itable e with d := d } := by rw [hc.itable, update_self]
  refine h.replace hr ?_ ?_ ?_ ?_ ?_ hlogs
  · intro _
    exact hsolid.congr_records hc.records hi
  · intro htype k de hde
    rw [hd] at htype
    refine hnames htype k de ?_
    rw [← hde]
    refine entry_congr ?_ (fun pos => (fileByte_congr_records hc.records _ pos).symm) k
    rw [hc.records _ hi]
  · intro x
    by_cases hx : x = e
    · rw [hx, hself]
      exact ⟨rfl, rfl⟩
    · rw [htable x hx]
      exact ⟨rfl, rfl⟩
  · intro x hl hxr
    by_cases hx : x = e
    · rw [hx] at hl
      rw [hx, hself]
      exact h.valid e hl he
    · rw [htable x hx]
      exact h.valid x hl hxr
  · intro x hxr hxv
    by_cases hx : x = e
    · rw [hx, hself, hd]
      exact ⟨rfl, ht⟩
    · rw [htable x hx] at hxv ⊢
      have hne : G.inum x ≠ G.inum e := fun heq => hx (h.unique x e hxr he heq)
      rw [hr.records _ (h.inum x hxr).2 hne]
      exact h.copy x hxr hxv

end Clean

end RiscvKernel
