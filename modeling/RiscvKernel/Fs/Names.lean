import RiscvKernel.Fs.Dir
import Mathlib.Data.List.TakeWhile

/-!
# Names in directories

The names of directory entries are fields of 14 bytes: a shorter name ends with a NUL, and the
bytes behind it do not count. `dirlookup` compares a name with `strncmp` and `dirlink` stores it
with `strncpy`. The functions here work on the bytes; they do what the functions of
`RiscvKernel.Fs.Model` do with the name that the bytes stand for.
-/

namespace RiscvKernel

open Threads Function
open Threads.Seq (Runs bind_apply ok_bind gets_apply)
open Bytes (blit blit_inside blit_outside num)

/-- `strncmp`. -/
def strncmp : ℕ → (ℕ → UInt8) → (ℕ → UInt8) → ℤ
  | 0, _, _ => 0
  | n + 1, p, q =>
    if p 0 ≠ 0 ∧ p 0 = q 0 then strncmp n (fun j => p (j + 1)) (fun j => q (j + 1))
    else (p 0).toNat - (q 0).toNat

/-- `while(n-- > 0) *s++ = 0`. -/
def zeroFill : ℕ → (ℕ → UInt8) → ℕ → ℕ → UInt8
  | 0, mem, _ => mem
  | n + 1, mem, s => zeroFill n (update mem s 0) (s + 1)

/-- `strncpy`. -/
def strncpy : ℕ → (ℕ → UInt8) → ℕ → (ℕ → UInt8) → ℕ → UInt8
  | 0, mem, _, _ => mem
  | n + 1, mem, s, t =>
    if t 0 ≠ 0 then strncpy n (update mem s (t 0)) (s + 1) fun j => t (j + 1)
    else zeroFill n (update mem s (t 0)) (s + 1)

/-- `namecmp`. -/
def namecmp (s t : ℕ → UInt8) : ℤ := strncmp dirsiz s t

/-- The string of at most `n` bytes at the start of `t`. -/
def strOf (n : ℕ) (t : ℕ → UInt8) : List UInt8 := ((List.range n).map t).takeWhile (· ≠ 0)

/-- The name in a buffer of `DIRSIZ` bytes. -/
def nameOf (name : ℕ → UInt8) : Name := strOf dirsiz name

section Strings

variable {n s : ℕ} {t p q mem : ℕ → UInt8}

/-- The first character of a name. -/
theorem strOf_succ (n : ℕ) (t : ℕ → UInt8) :
    strOf (n + 1) t = if t 0 ≠ 0 then t 0 :: strOf n (fun j => t (j + 1)) else [] := by
  unfold strOf
  rw [List.range_succ_eq_map, List.map_cons, List.map_map, List.takeWhile_cons]
  simp only [decide_eq_true_eq]
  rfl

theorem length_strOf_le (n : ℕ) (t : ℕ → UInt8) : (strOf n t).length ≤ n := by
  unfold strOf
  exact (List.takeWhile_prefix _).length_le.trans (by simp)

/-- A name has no NUL. -/
theorem strOf_ne_zero {c : UInt8} (hc : c ∈ strOf n t) : c ≠ 0 := by
  simpa using List.mem_takeWhile_imp hc

/-- `strncmp` returns 0 for equal strings only. -/
theorem strncmp_eq_zero : strncmp n p q = 0 ↔ strOf n p = strOf n q := by
  induction n generalizing p q with
  | zero => exact ⟨fun _ => rfl, fun _ => rfl⟩
  | succ n ih =>
    rw [strncmp, strOf_succ, strOf_succ]
    by_cases hp : p 0 = 0
    · rw [if_neg (by simp [hp]), if_neg (by simp [hp])]
      by_cases hq : q 0 = 0
      · simp [hp, hq]
      · have hne : (q 0).toNat ≠ 0 := fun h => hq (UInt8.toNat_inj.1 h)
        rw [if_pos hq, hp]
        simpa using hne
    · by_cases hpq : p 0 = q 0
      · rw [if_pos ⟨hp, hpq⟩, if_pos hp, if_pos (hpq ▸ hp), ih, hpq]
        simp
      · have hne : (p 0).toNat ≠ (q 0).toNat := fun h => hpq (UInt8.toNat_inj.1 h)
        rw [if_neg fun h => hpq h.2, if_pos hp]
        constructor
        · intro h
          omega
        · intro h
          split at h
          · exact absurd (List.cons.inj h).1 hpq
          · cases h

/-- `namecmp` compares names. -/
theorem namecmp_eq_zero : namecmp p q = 0 ↔ nameOf q = nameOf p :=
  strncmp_eq_zero.trans eq_comm

theorem zeroFill_eq : zeroFill n mem s = blit mem s n fun _ => 0 := by
  induction n generalizing mem s with
  | zero =>
    funext a
    rw [blit_outside _ _ (by omega)]
    rfl
  | succ n ih =>
    rw [zeroFill, ih]
    funext a
    by_cases ha : s + 1 ≤ a ∧ a < s + 1 + n
    · rw [blit_inside _ _ ha.1 ha.2, blit_inside _ _ (by omega) (by omega)]
    · rw [blit_outside _ _ (by omega)]
      by_cases has : a = s
      · rw [has, update_self, blit_inside _ _ le_rfl (by omega)]
      · rw [update_of_ne has, blit_outside _ _ (by omega)]

/-- `strncpy` copies the string and fills up with zeros. -/
theorem strncpy_eq : strncpy n mem s t = blit mem s n fun k => (strOf n t).getD k 0 := by
  induction n generalizing mem s t with
  | zero =>
    funext a
    rw [blit_outside _ _ (by omega)]
    rfl
  | succ n ih =>
    rw [strncpy, strOf_succ]
    by_cases h0 : t 0 = 0
    · rw [if_neg (by simp [h0]), if_neg (by simp [h0]), h0]
      change zeroFill (n + 1) mem s = _
      rw [zeroFill_eq]
      rfl
    · rw [if_pos h0, if_pos h0, ih]
      funext a
      by_cases ha : s + 1 ≤ a ∧ a < s + 1 + n
      · rw [blit_inside _ _ ha.1 ha.2, blit_inside _ _ (by omega) (by omega)]
        obtain ⟨k, rfl⟩ := Nat.exists_eq_add_of_le ha.1
        rw [Nat.add_sub_cancel_left, Nat.add_assoc, Nat.add_sub_cancel_left, Nat.add_comm 1 k,
          List.getD_cons_succ]
      · rw [blit_outside _ _ (by omega)]
        by_cases has : a = s
        · rw [has, update_self, blit_inside _ _ le_rfl (by omega), Nat.sub_self,
            List.getD_cons_zero]
        · rw [update_of_ne has, blit_outside _ _ (by omega)]

end Strings

/-! ## The functions on bytes -/

/-- The loop over the entries of a directory: the offset reached, the buffer `de`, and whether the
loop has stopped at an entry. -/
def scanAt (sb : Superblock) (e : InodeId) (msg : String) (stop : Mem → Bool) :
    ℕ → ℕ → Mem → FsM (ℕ × Mem × Bool)
  | 0, off, de => return (off, de, false)
  | fuel + 1, off, de => do
    let ip ← Seq.gets (·.itable e)
    if off < ip.d.size.toNat then
      let r ← readi sb e .kernel 0 off direntSize de
      if r.1 ≠ direntSize then Seq.panic msg
      else if stop r.2 then return (off, r.2, true)
      else scanAt sb e msg stop fuel (off + direntSize) r.2
    else return (off, de, false)

/-- `de.inum`. -/
def inumAt (de : Mem) : ℕ := num de 0 2

/-- The search of `dirlookup` for the name in a buffer. -/
def dirlookupScanAt (sb : Superblock) (e : InodeId) (name : Mem) : FsM (Option (ℕ × ℕ)) := do
  let ip ← Seq.gets (·.itable e)
  if ip.d.type ≠ tDir then Seq.panic "dirlookup not DIR"
  else
    let r ← scanAt sb e "dirlookup read"
      (fun de => inumAt de ≠ 0 ∧ namecmp name (fun j => de (2 + j)) = 0)
      (ip.d.size.toNat / direntSize + 1) 0 fun _ => 0
    return if r.2.2 then some (inumAt r.2.1, r.1) else none

/-- The second half of `dirlink` with the name in a buffer. -/
def dirlinkStoreAt (sb : Superblock) (e : InodeId) (name : Mem) (inum : ℕ) : FsM (Option ℕ) := do
  let ip ← Seq.gets (·.itable e)
  let r ← scanAt sb e "dirlink read" (fun de => inumAt de = 0)
    (ip.d.size.toNat / direntSize + 1) 0 fun _ => 0
  let de := Bytes.put (strncpy dirsiz r.2.1 2 name) 0 2 inum
  let n ← writei sb e (.kernel de) 0 r.1 direntSize
  return if n = direntSize then some r.1 else none

/-- Directory `i` is in memory at `e`, with the records `V`. -/
structure AtDir (sb : Superblock) (V : ℕ → Dinode) (i : ℕ) (e : InodeId) (s : Fs) : Prop where
  /-- Block ownership holds. -/
  owned : Owned sb ∅ V s.blocks
  /-- The record of the directory is the one in memory. -/
  view : V i = (s.itable e).d
  /-- Its number. -/
  inum : (s.itable e).inum = i
  /-- It exists. -/
  lt : i < sb.ninodes
  /-- No buffer is held. -/
  held : s.held = []
  /-- It is a directory. -/
  dir : (V i).type = tDir
  /-- It has no holes. -/
  solid : Solid sb V s.blocks i
  /-- It consists of whole entries. -/
  whole : direntSize ∣ (V i).size.toNat

namespace AtDir

variable {sb : Superblock} {V : ℕ → Dinode} {i k : ℕ} {e : InodeId} {s s' : Fs}

/-- A directory is a file. -/
theorem atFile (h : AtDir sb V i e s) : AtFile sb V i e s :=
  ⟨h.owned, h.view, h.lt, by rw [h.dir]; decide, h.held⟩

/-- An entry inside the directory is read completely. -/
theorem fits (h : AtDir sb V i e s) (hk : direntSize * k < (V i).size.toNat) :
    direntSize * k + direntSize ≤ (V i).size.toNat := by
  obtain ⟨c, hc⟩ := h.whole
  have hlt : k < c := Nat.lt_of_mul_lt_mul_left (by rwa [hc] at hk)
  have hle := Nat.mul_le_mul_left direntSize hlt
  rwa [Nat.mul_succ, ← hc] at hle

/-- Reading an entry into a buffer. -/
theorem readi_eq (h : AtDir sb V i e s) (hk : direntSize * k < (V i).size.toNat) (de : Mem) :
    readi sb e .kernel 0 (direntSize * k) direntSize de s =
      .ok ((direntSize : ℤ), blit de 0 direntSize
        fun j => fileByte sb V s.blocks i (direntSize * k + j)) s := by
  have hlen : readLen (V i).size.toNat (direntSize * k) direntSize = direntSize := by
    have hfit := h.fits hk
    rw [readLen, if_neg (by omega)]
    omega
  have hruns : Runs (fun _ => False)
      (readi sb e .kernel 0 (direntSize * k) direntSize de) s _ :=
    readi_runs h.atFile h.solid (by decide)
  obtain ⟨r, s', hrun, rfl, hr⟩ := hruns.returns
  rcases hr with ⟨-, hno, -⟩ | rfl
  · exact absurd trivial hno
  · rw [hrun, hlen]

/-- What is read. -/
theorem ofMem_read (de : Mem) (k : ℕ) (blocks : ℕ → Block) :
    Dirent.ofMem (blit de 0 direntSize
      fun j => fileByte sb V blocks i (direntSize * k + j)) = dirent sb V blocks i k := by
  refine Dirent.ofMem_congr fun j hj => ?_
  rw [blit_inside _ _ (Nat.zero_le j) (by rw [Nat.zero_add]; exact hj), Nat.sub_zero]

/-- The loop on bytes stops where the loop on entries stops. -/
theorem scanAt_eq (h : AtDir sb V i e s) (stop : Mem → Bool) (stop' : Dirent → Bool)
    (hstop : ∀ m, stop m = stop' (Dirent.ofMem m)) (msg : String) (fuel k : ℕ) {de : Mem}
    (hde : ∀ j ≥ direntSize, de j = 0) :
    ∃ r de', dirScan sb e msg stop' fuel (direntSize * k) s = .ok r s ∧
      scanAt sb e msg stop fuel (direntSize * k) de s = .ok (r.1, de', r.2.isSome) s ∧
      (∀ j ≥ direntSize, de' j = 0) ∧ ∀ d, r.2 = some d → Dirent.ofMem de' = d := by
  induction fuel generalizing k de with
  | zero => exact ⟨_, de, rfl, rfl, hde, fun d hd => nomatch hd⟩
  | succ fuel ih =>
    rw [dirScan, scanAt]
    simp only [bind_apply, gets_apply, ok_bind, ← h.view]
    by_cases hk : direntSize * k < (V i).size.toNat
    · have hread : readDirent sb e msg (direntSize * k) s = .ok (dirent sb V s.blocks i k) s := by
        unfold readDirent
        rw [bind_apply, h.readi_eq hk, ok_bind, if_pos rfl, ofMem_read]
        rfl
      have hbuf : ∀ j ≥ direntSize, blit de 0 direntSize
          (fun j => fileByte sb V s.blocks i (direntSize * k + j)) j = 0 := by
        intro j hj
        rw [blit_outside _ _ (by omega), hde j hj]
      simp only [if_pos hk, bind_apply, hread, h.readi_eq hk, ok_bind, ne_eq,
        not_true_eq_false, if_false, hstop, ofMem_read]
      cases hgo : stop' (dirent sb V s.blocks i k) with
      | true =>
        refine ⟨_, _, rfl, rfl, hbuf, fun d hd => ?_⟩
        cases hd
        exact ofMem_read de k s.blocks
      | false =>
        rw [← Nat.mul_succ]
        exact ih (k + 1) hbuf
    · simp only [if_neg hk]
      exact ⟨_, de, rfl, rfl, hde, fun d hd => nomatch hd⟩

/-- The search on bytes is the search for the name they stand for. -/
theorem dirlookupScanAt_eq (h : AtDir sb V i e s) (name : Mem) :
    dirlookupScanAt sb e name s = dirlookupScan sb e (nameOf name) s := by
  have hstop : ∀ m : Mem, decide (inumAt m ≠ 0 ∧ namecmp name (fun j => m (2 + j)) = 0) =
      decide ((Dirent.ofMem m).inum ≠ 0 ∧ (Dirent.ofMem m).name = nameOf name) := by
    intro m
    unfold namecmp
    rw [decide_eq_decide, strncmp_eq_zero, eq_comm (a := strOf dirsiz name)]
    exact Iff.rfl
  obtain ⟨r, de, hscan, hscanAt, -, hde⟩ := h.scanAt_eq
    (fun m => inumAt m ≠ 0 ∧ namecmp name (fun j => m (2 + j)) = 0)
    (fun d => d.inum ≠ 0 ∧ d.name = nameOf name) hstop "dirlookup read"
    ((V i).size.toNat / direntSize + 1) 0 (fun _ _ => rfl)
  rw [Nat.mul_zero] at hscan hscanAt
  have htype : ¬ (V i).type ≠ tDir := not_not.2 h.dir
  unfold dirlookupScanAt dirlookupScan dirScanAll
  simp only [bind_apply, gets_apply, ok_bind, ← h.view, if_neg htype, hscan, hscanAt]
  cases hr : r.2 with
  | none => rfl
  | some d =>
    rw [← hde d hr]
    rfl

/-- Storing an entry on bytes. -/
theorem dirlinkStoreAt_eq (h : AtDir sb V i e s) (name : Mem) (inum : ℕ) :
    dirlinkStoreAt sb e name inum s = dirlinkStore sb e (nameOf name) inum s := by
  obtain ⟨r, de, hscan, hscanAt, hzero, -⟩ := h.scanAt_eq (fun m => inumAt m = 0)
    (fun d => d.inum = 0) (fun _ => rfl) "dirlink read"
    ((V i).size.toNat / direntSize + 1) 0 (fun _ _ => rfl)
  rw [Nat.mul_zero] at hscan hscanAt
  have hbytes : Bytes.put (strncpy dirsiz de 2 name) 0 2 inum =
      Dirent.mem ⟨inum, nameOf name⟩ := by
    have hlen := length_strOf_le dirsiz name
    rw [strncpy_eq]
    funext j
    unfold Dirent.mem
    by_cases hj : j < 2
    · rw [if_pos hj]
      exact blit_inside _ _ (Nat.zero_le j) (by omega)
    · rw [if_neg hj]
      unfold Bytes.put
      rw [blit_outside _ _ (by omega)]
      by_cases hj' : j < 2 + dirsiz
      · exact blit_inside _ _ (by omega) hj'
      · have hend : direntSize ≤ j := by
          unfold dirsiz at hj'
          unfold direntSize
          omega
        rw [blit_outside _ _ (by omega), hzero j hend, List.getD_eq_default]
        exact hlen.trans (by omega)
  unfold dirlinkStoreAt dirlinkStore dirScanAll
  simp only [bind_apply, gets_apply, ok_bind, ← h.view, hscan, hscanAt, hbytes]

end AtDir

/-! ## The map from names to inode numbers -/

/-- The first entry of directory `i` with a name: its inode number and its offset. -/
def dirFind (sb : Superblock) (V : ℕ → Dinode) (blocks : ℕ → Block) (i : ℕ) (name : Name) :
    Option (ℕ × ℕ) :=
  ((List.range ((V i).size.toNat / direntSize)).find? fun k =>
      (entry sb V blocks i k).any fun de => de.name = name).bind fun k =>
    (entry sb V blocks i k).map fun de => (de.inum, direntSize * k)

section Find

variable {sb : Superblock} {V : ℕ → Dinode} {blocks : ℕ → Block} {i : ℕ} {name : Name}

/-- Entries in use are found below the size. -/
theorem lt_of_entry {k : ℕ} {de : Dirent} (h : entry sb V blocks i k = some de) :
    k < (V i).size.toNat / direntSize := by
  unfold entry at h
  split at h
  · rename_i hlive
    rw [Nat.lt_iff_add_one_le, Nat.le_div_iff_mul_le (by decide), Nat.add_mul, Nat.one_mul,
      Nat.mul_comm]
    exact hlive.1
  · cases h

/-- No entry has the name. -/
theorem dirFind_eq_none : dirFind sb V blocks i name = none ↔
    ∀ k de, entry sb V blocks i k = some de → de.name ≠ name := by
  unfold dirFind
  constructor
  · intro h k de hde hname
    cases hfind : (List.range ((V i).size.toNat / direntSize)).find? fun k =>
        (entry sb V blocks i k).any fun de => de.name = name with
    | none =>
      rw [List.find?_range_eq_none] at hfind
      have hno := hfind k (lt_of_entry hde)
      simp [hde, hname] at hno
    | some m =>
      obtain ⟨hm, -, -⟩ := List.find?_range_eq_some.1 hfind
      rw [hfind, Option.bind_some, Option.map_eq_none_iff] at h
      simp [h] at hm
  · intro h
    rw [Option.bind_eq_none_iff]
    intro k hk
    obtain ⟨hm, -, -⟩ := List.find?_range_eq_some.1 hk
    cases hde : entry sb V blocks i k with
    | none => rfl
    | some de =>
      rw [hde] at hm
      exact absurd (of_decide_eq_true hm) (h k de hde)

/-- The first entry with the name. -/
theorem dirFind_eq_some {x : ℕ × ℕ} : dirFind sb V blocks i name = some x ↔
    ∃ k, x.2 = direntSize * k ∧ entry sb V blocks i k = some ⟨x.1, name⟩ ∧
      ∀ l < k, ∀ de, entry sb V blocks i l = some de → de.name ≠ name := by
  unfold dirFind
  constructor
  · intro h
    obtain ⟨k, hfind, hx⟩ := Option.bind_eq_some_iff.1 h
    obtain ⟨hm, -, hfirst⟩ := List.find?_range_eq_some.1 hfind
    obtain ⟨de, hde, rfl⟩ := Option.map_eq_some_iff.1 hx
    have hname : de.name = name := by simpa [hde] using hm
    refine ⟨k, rfl, by rw [hde, ← hname], fun l hl de' hde' hname' => ?_⟩
    have hno := hfirst l hl
    simp [hde', hname'] at hno
  · rintro ⟨k, hoff, hde, hfirst⟩
    rw [Option.bind_eq_some_iff]
    refine ⟨k, List.find?_range_eq_some.2 ⟨?_, ?_, ?_⟩, ?_⟩
    · simp [hde]
    · exact List.mem_range.2 (lt_of_entry hde)
    · intro l hl
      cases hl' : entry sb V blocks i l with
      | none => rfl
      | some de => simpa using hfirst l hl de hl'
    · rw [hde, Option.map_some, ← hoff]

/-- No two entries in use have the same name. -/
def Distinct (sb : Superblock) (V : ℕ → Dinode) (blocks : ℕ → Block) (i : ℕ) : Prop :=
  ∀ k l de de', entry sb V blocks i k = some de → entry sb V blocks i l = some de' →
    de.name = de'.name → k = l

variable {V' : ℕ → Dinode} {blocks' : ℕ → Block} {k inum : ℕ}

theorem Distinct.congr (hd : Distinct sb V blocks i)
    (h : ∀ k, entry sb V' blocks' i k = entry sb V blocks i k) : Distinct sb V' blocks' i := by
  intro k l de de' hk hl hname
  rw [h] at hk hl
  exact hd k l de de' hk hl hname

/-- In a directory with distinct names every entry is found by its name. -/
theorem Distinct.dirFind_iff (hd : Distinct sb V blocks i) {x : ℕ × ℕ} :
    dirFind sb V blocks i name = some x ↔
      ∃ k, x.2 = direntSize * k ∧ entry sb V blocks i k = some ⟨x.1, name⟩ := by
  rw [dirFind_eq_some]
  constructor
  · rintro ⟨k, hoff, hk, -⟩
    exact ⟨k, hoff, hk⟩
  · rintro ⟨k, hoff, hk⟩
    refine ⟨k, hoff, hk, fun l hl de hde hname => ?_⟩
    have := hd l k de _ hde hk hname
    omega

section Link

variable (h : ∀ l, entry sb V' blocks' i l =
  if l = k then some ⟨inum, name⟩ else entry sb V blocks i l)
include h

/-- Another entry keeps the names distinct if its name is new. -/
theorem Distinct.link (hd : Distinct sb V blocks i) (hnew : dirFind sb V blocks i name = none) :
    Distinct sb V' blocks' i := by
  rw [dirFind_eq_none] at hnew
  intro a b de de' ha hb hname
  rw [h] at ha hb
  split at ha
  · split at hb
    · rename_i ha' hb'
      rw [ha', hb']
    · cases ha
      exact absurd hname.symm (hnew b de' hb)
  · split at hb
    · cases hb
      exact absurd hname (hnew a de ha)
    · exact hd a b de de' ha hb hname

/-- The map with one more name. -/
theorem dirFind_link (hd : Distinct sb V blocks i) (hnew : dirFind sb V blocks i name = none)
    (name' : Name) (hfree : entry sb V blocks i k = none) :
    dirFind sb V' blocks' i name' =
      if name' = name then some (inum, direntSize * k) else dirFind sb V blocks i name' := by
  have hd' := hd.link h hnew
  split
  · rename_i hname
    rw [hname, hd'.dirFind_iff]
    exact ⟨k, rfl, by rw [h, if_pos rfl]⟩
  · rename_i hname
    ext x
    rw [hd'.dirFind_iff, hd.dirFind_iff]
    refine exists_congr fun l => and_congr_right fun _ => ?_
    rw [h]
    split
    · rename_i hl
      rw [hl, hfree]
      simp [Ne.symm hname]
    · exact Iff.rfl

end Link

section Unlink

variable (h : ∀ l, entry sb V' blocks' i l = if l = k then none else entry sb V blocks i l)
include h

/-- Names stay distinct when one is removed. -/
theorem Distinct.unlink (hd : Distinct sb V blocks i) : Distinct sb V' blocks' i := by
  intro a b de de' ha hb hname
  rw [h] at ha hb
  split at ha
  · cases ha
  · split at hb
    · cases hb
    · exact hd a b de de' ha hb hname

/-- The map with one name less. -/
theorem dirFind_unlink (hd : Distinct sb V blocks i)
    (hk : entry sb V blocks i k = some ⟨inum, name⟩) (name' : Name) :
    dirFind sb V' blocks' i name' =
      if name' = name then none else dirFind sb V blocks i name' := by
  have hd' := hd.unlink h
  split
  · rename_i hname
    rw [hname, dirFind_eq_none]
    intro l de hl hde
    rw [h] at hl
    split at hl
    · cases hl
    · rename_i hne
      exact hne (hd l k de _ hl hk hde)
  · rename_i hname
    ext x
    rw [hd'.dirFind_iff, hd.dirFind_iff]
    refine exists_congr fun l => and_congr_right fun _ => ?_
    rw [h]
    split
    · rename_i hl
      rw [hl, hk]
      simp [Ne.symm hname]
    · exact Iff.rfl

end Unlink

end Find

/-- A free slot is inside the directory. -/
def HasFree (sb : Superblock) (V : ℕ → Dinode) (blocks : ℕ → Block) (i : ℕ) : Prop :=
  ∃ l, direntSize * l + direntSize ≤ (V i).size.toNat ∧ entry sb V blocks i l = none

namespace AtDir

variable {sb : Superblock} {V : ℕ → Dinode} {i k : ℕ} {e : InodeId} {s s' : Fs}

/-- `dirlookup` finds the first entry with the name and never fails to read. -/
theorem dirlookupScan_eq (h : AtDir sb V i e s) (name : Name) :
    dirlookupScan sb e name s = .ok (dirFind sb V s.blocks i name) s := by
  have hruns : Runs _ (dirlookupScan sb e name) s _ :=
    dirlookupScan_runs h.atFile fun _ => h.solid
  rcases hruns.cases with ⟨r, s', hrun, rfl, -, hr⟩ | ⟨msg, s', -, ⟨-, hnot⟩ | ⟨-, hnot⟩⟩
  · rw [hrun]
    cases r with
    | none => rw [dirFind_eq_none.2 hr]
    | some x => rw [dirFind_eq_some.2 hr]
  · exact absurd h.dir hnot
  · exact absurd h.whole hnot

/-- The directory after an entry has been written, or nothing. -/
theorem wrote {src : Mem} {w : ℕ} {d : Dinode} (h : AtDir sb V i e s)
    (hw : Wrote sb V i e src (direntSize * k) w w s s' d) (hdvd : direntSize ∣ w)
    (hk : direntSize * k ≤ (V i).size.toNat) (hmax : direntSize * k + w ≤ maxfile * bsize) :
    AtDir sb (update V i d) i e s' := by
  have hself : s'.itable e = { s.itable e with d := d } := by rw [hw.itable, update_self]
  have hview : (update V i d) i = d := update_self i d V
  constructor
  · exact hw.owned
  · rw [hself, hview]
  · rw [hself]
    exact h.inum
  · exact h.lt
  · exact hw.held.trans h.held
  · rw [hview, hw.fields]
    exact h.view ▸ h.dir
  · exact hw.solid h.view (h.view ▸ hk) le_rfl hmax h.solid
  · rw [hview, hw.size, ← h.view]
    rcases max_choice (V i).size.toNat (direntSize * k + w) with hm | hm
    · rw [hm]
      exact h.whole
    · rw [hm]
      exact Nat.dvd_add (Nat.dvd_mul_right _ _) hdvd

/-- `dirlink` adds a new name to the map, in a free slot if there is one, or finds no space. -/
theorem dirlinkStore_spec {name : Name} {inum : ℕ} (h : AtDir sb V i e s)
    (hd : Distinct sb V s.blocks i) (hnew : dirFind sb V s.blocks i name = none)
    (hpos : 0 < inum) (hinum : inum < 2 ^ 16) (hlen : name.length ≤ dirsiz)
    (hnul : ∀ c ∈ name, c ≠ 0) :
    ∃ r s' V', dirlinkStore sb e name inum s = .ok r s' ∧ AtDir sb V' i e s' ∧
      Distinct sb V' s'.blocks i ∧
      (r = none ∧ (∀ l, entry sb V' s'.blocks i l = entry sb V s.blocks i l) ∧
          ¬ HasFree sb V s.blocks i ∧
          (maxfile * bsize < (V i).size.toNat + direntSize ∨ s.denied < s'.denied) ∨
        ∃ k, r = some (direntSize * k) ∧
          (∀ name', dirFind sb V' s'.blocks i name' = if name' = name then
            some (inum, direntSize * k) else dirFind sb V s.blocks i name') ∧
          (HasFree sb V s.blocks i → (V' i).size = (V i).size)) := by
  have hruns : Runs _ (dirlinkStore sb e name inum) s _ :=
    dirlinkStore_runs h.atFile h.inum h.solid
  rcases hruns.cases with ⟨r, s', hrun, hr⟩ | ⟨msg, s', -, -, hnot⟩
  · refine ⟨r, s', ?_⟩
    rcases hr with ⟨k, d, rfl, hfree, hk, hmax, hused, hw⟩ | ⟨rfl, hsame, hfull, hspace⟩
    · have hread : Dirent.ofMem (Dirent.mem ⟨inum, name⟩) = ⟨inum, name⟩ :=
        Dirent.ofMem_mem hinum hlen hnul
      have hentry : ∀ l, entry sb (update V i d) s'.blocks i l =
          if l = k then some ⟨inum, name⟩ else entry sb V s.blocks i l := by
        intro l
        rw [hw.entry h.view hk, hread, if_pos (Nat.pos_iff_ne_zero.1 hpos)]
      refine ⟨_, hrun, h.wrote hw dvd_rfl hk hmax, hd.link hentry hnew,
        .inr ⟨k, rfl, fun name' => dirFind_link hentry hd hnew name' hfree, ?_⟩⟩
      rintro ⟨l, hl, hnone⟩
      have hle : k ≤ l := by
        by_contra hlt
        exact hused l (by omega) hnone
      have hmul := Nat.mul_le_mul_left direntSize hle
      apply BitVec.eq_of_toNat_eq
      rw [update_self, hw.size, ← h.view]
      omega
    · have hno : ¬ HasFree sb V s.blocks i := by
        rintro ⟨l, hl, hnone⟩
        exact hfull l hl hnone
      rcases hsame with rfl | ⟨k, d, hk, hw⟩
      · exact ⟨V, hrun, h, hd, .inl ⟨rfl, fun _ => rfl, hno, hspace⟩⟩
      · have hentry := hw.entry_of_zero h.view hk
        have hmax : direntSize * k + 0 ≤ maxfile * bsize := hk.trans h.solid.1
        exact ⟨_, hrun, h.wrote hw (Nat.dvd_zero _) hk hmax, hd.congr hentry,
          .inl ⟨rfl, hentry, hno, hspace⟩⟩
  · exact absurd h.whole hnot

/-- Clearing an entry takes its name out of the map. -/
theorem clearDirent_spec {name : Name} {inum off : ℕ} (h : AtDir sb V i e s)
    (hd : Distinct sb V s.blocks i)
    (hfound : dirFind sb V s.blocks i name = some (inum, off)) :
    ∃ s' V', clearDirent sb e off s = .ok () s' ∧ AtDir sb V' i e s' ∧
      Distinct sb V' s'.blocks i ∧ (V' i).size = (V i).size ∧
      ∀ name', dirFind sb V' s'.blocks i name' =
        if name' = name then none else dirFind sb V s.blocks i name' := by
  obtain ⟨k, rfl, hk, -⟩ := dirFind_eq_some.1 hfound
  have hin : direntSize * k + direntSize ≤ (V i).size.toNat := by
    unfold entry at hk
    split at hk
    · rename_i hlive
      exact hlive.1
    · cases hk
  have hruns : Runs _ (clearDirent sb e (direntSize * k)) s _ :=
    clearDirent_runs h.atFile h.inum h.solid
  rcases hruns.cases with ⟨r, s', hrun, d, hmax, hw⟩ | ⟨msg, s', -, -, hnot⟩
  · have hle : direntSize * k ≤ (V i).size.toNat := by omega
    have hentry : ∀ l, entry sb (update V i d) s'.blocks i l =
        if l = k then none else entry sb V s.blocks i l := by
      intro l
      rw [hw.entry h.view hle, if_neg (not_not.2 (Dirent.inum_ofMem_zero fun _ _ => rfl))]
    refine ⟨s', _, hrun, h.wrote hw dvd_rfl hle hmax, hd.unlink hentry, ?_,
      fun name' => dirFind_unlink hentry hd hk name'⟩
    apply BitVec.eq_of_toNat_eq
    rw [update_self, hw.size, ← h.view]
    omega
  · omega

end AtDir

end RiscvKernel
