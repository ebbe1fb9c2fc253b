import RiscvKernel.Fs.Contents

/-!
# Directories

A directory is a file of entries of 16 bytes. On a directory without holes the loops of
`dirlookup`, `dirlink` and `isdirempty` read the entries in order and change nothing;
`dirlink` and `sys_unlink` replace one entry. An entry never crosses a block boundary, so
it is written completely or not at all.
-/

namespace RiscvKernel

open Threads Function
open Threads.Seq (Runs)

/-- Entry `k` of directory `i`. -/
def dirent (sb : Superblock) (V : ℕ → Dinode) (blocks : ℕ → Block) (i k : ℕ) : Dirent :=
  Dirent.ofMem fun j => fileByte sb V blocks i (direntSize * k + j)

/-- Entry `k` of directory `i` if it is in use. -/
def entry (sb : Superblock) (V : ℕ → Dinode) (blocks : ℕ → Block) (i k : ℕ) : Option Dirent :=
  if direntSize * k + direntSize ≤ (V i).size.toNat ∧ (dirent sb V blocks i k).inum ≠ 0 then
    some (dirent sb V blocks i k)
  else none

section Scan

variable {sb : Superblock} {V : ℕ → Dinode} {i k : ℕ} {e : InodeId} {s : Fs} {msg : String}

/-- The entry depends on the bytes of the file. -/
theorem dirent_congr {V' : ℕ → Dinode} {blocks blocks' : ℕ → Block}
    (h : ∀ pos, fileByte sb V' blocks' i pos = fileByte sb V blocks i pos) (k : ℕ) :
    dirent sb V' blocks' i k = dirent sb V blocks i k := by
  unfold dirent
  simp only [h]

/-- Entries depend on the bytes of the directory. -/
theorem entry_congr {V' : ℕ → Dinode} {blocks blocks' : ℕ → Block}
    (hsize : (V' i).size = (V i).size)
    (h : ∀ pos, fileByte sb V' blocks' i pos = fileByte sb V blocks i pos) (k : ℕ) :
    entry sb V' blocks' i k = entry sb V blocks i k := by
  unfold entry
  rw [dirent_congr h, hsize]

/-- An entry in use lies inside the directory. -/
theorem entry_lt {blocks : ℕ → Block} {m : ℕ} {de : Dirent}
    (hsize : (V i).size.toNat ≤ direntSize * m) (hde : entry sb V blocks i k = some de) :
      k < m := by
  unfold entry at hde
  split at hde
  · rename_i hlive
    have hpos : 0 < direntSize := by decide
    exact Nat.lt_of_mul_lt_mul_left (a := direntSize) (by omega)
  · cases hde

/-- Reading one entry; a part of an entry at the end of the directory is an error. -/
theorem readDirent_runs (hf : AtFile sb V i e s) (hsolid : Solid sb V s.blocks i)
    (hk : direntSize * k < (V i).size.toNat) :
    Runs (fun m => m = msg ∧ ¬ direntSize ∣ (V i).size.toNat)
      (readDirent sb e msg (direntSize * k)) s fun de s' => s' = s ∧
      direntSize * k + direntSize ≤ (V i).size.toNat ∧ de = dirent sb V s.blocks i k := by
  have hlen : readLen (V i).size.toNat (direntSize * k) direntSize =
      min direntSize ((V i).size.toNat - direntSize * k) := by
    have hmax : maxfile * bsize + direntSize < 2 ^ 32 := by decide
    have := hsolid.1
    rw [readLen, if_neg (by omega)]
  unfold readDirent
  refine .bind ((readi_runs hf hsolid (by decide)).imp
    (fun _ hf => hf.elim) fun _ _ hr => hr) ?_
  rintro r s' ⟨rfl, ⟨-, hno, -⟩ | rfl⟩
  · exact absurd trivial hno
  · rw [hlen]
    dsimp only
    split
    · rename_i hall
      have hfit : direntSize * k + direntSize ≤ (V i).size.toNat := by omega
      refine .pure ⟨rfl, hfit, Dirent.ofMem_congr fun j hj => ?_⟩
      have hj' : j < direntSize := hj
      rw [Bytes.blit_inside _ _ (Nat.zero_le j) (by omega), Nat.sub_zero]
    · refine .panic ⟨rfl, ?_⟩
      rintro ⟨c, hc⟩
      have hlt : k < c := Nat.lt_of_mul_lt_mul_left (by rwa [hc] at hk)
      have hle : direntSize * (k + 1) ≤ direntSize * c := Nat.mul_le_mul_left _ hlt
      rw [Nat.mul_succ] at hle
      omega

/-- What the loop over the entries from `k` on finds. -/
def Scanned (sb : Superblock) (V : ℕ → Dinode) (blocks : ℕ → Block) (i : ℕ) (stop : Dirent → Bool)
    (k : ℕ) (r : ℕ × Option Dirent) : Prop :=
  ∃ m, k ≤ m ∧ r.1 = direntSize * m ∧
    (∀ l, k ≤ l → l < m → direntSize * l + direntSize ≤ (V i).size.toNat ∧
      stop (dirent sb V blocks i l) = false) ∧
    (r.2 = none ∧ (V i).size.toNat ≤ direntSize * m ∨
      r.2 = some (dirent sb V blocks i m) ∧ direntSize * m + direntSize ≤ (V i).size.toNat ∧
        stop (dirent sb V blocks i m) = true)

/-- The loop over the entries of a directory. -/
theorem dirScan_runs (hf : AtFile sb V i e s) (hsolid : Solid sb V s.blocks i)
    {stop : Dirent → Bool} {fuel : ℕ}
    (hfuel : (V i).size.toNat ≤ direntSize * (k + fuel)) :
    Runs (fun m => m = msg ∧ ¬ direntSize ∣ (V i).size.toNat)
      (dirScan sb e msg stop fuel (direntSize * k)) s fun r s' => s' = s ∧
        Scanned sb V s.blocks i stop k r := by
  induction fuel generalizing k with
  | zero =>
    exact .pure ⟨rfl, k, le_rfl, rfl, fun l h1 h2 => by omega, .inl ⟨rfl, hfuel⟩⟩
  | succ fuel ih =>
    rw [dirScan]
    refine .gets_bind ?_
    rw [← hf.view]
    split
    · rename_i hlt
      refine .bind (readDirent_runs hf hsolid hlt) ?_
      rintro de s' ⟨rfl, hfit, rfl⟩
      split
      · rename_i hstop
        exact .pure ⟨rfl, k, le_rfl, rfl, fun l h1 h2 => by omega,
          .inr ⟨rfl, hfit, hstop⟩⟩
      · rename_i hgo
        rw [← Nat.mul_succ]
        refine (ih (by rw [Nat.succ_add, ← Nat.add_succ]; exact hfuel)).mono ?_
        rintro r s'' ⟨rfl, m, hm, hr, hall, hend⟩
        refine ⟨rfl, m, by omega, hr, fun l h1 h2 => ?_, hend⟩
        rcases Nat.eq_or_lt_of_le h1 with rfl | hlt'
        · exact ⟨hfit, by simpa using hgo⟩
        · exact hall l hlt' h2
    · rename_i hge
      exact .pure ⟨rfl, k, le_rfl, rfl, fun l h1 h2 => by omega, .inl ⟨rfl, by omega⟩⟩

/-- The search through a directory. -/
theorem dirScanAll_runs (hf : AtFile sb V i e s) (hsolid : Solid sb V s.blocks i)
    {stop : Dirent → Bool} :
    Runs (fun m => m = msg ∧ ¬ direntSize ∣ (V i).size.toNat)
      (dirScanAll sb e msg stop (direntSize * k)) s fun r s' => s' = s ∧
        Scanned sb V s.blocks i stop k r := by
  unfold dirScanAll
  refine .gets_bind (dirScan_runs hf hsolid ?_)
  rw [← hf.view]
  have := Nat.lt_mul_div_succ (V i).size.toNat (show 0 < direntSize by decide)
  rw [Nat.mul_add]
  omega

/-- The search of `dirlookup` returns the entry with the name, or there is none. -/
theorem dirlookupScan_runs (hf : AtFile sb V i e s)
    (hsolid : (V i).type = tDir → Solid sb V s.blocks i) {name : Name} :
    Runs (fun msg => msg = "dirlookup not DIR" ∧ (V i).type ≠ tDir ∨
        msg = "dirlookup read" ∧ ¬ direntSize ∣ (V i).size.toNat)
      (dirlookupScan sb e name) s fun r s' => s' = s ∧ (V i).type = tDir ∧
        match r with
        | none => ∀ k de, entry sb V s.blocks i k = some de → de.name ≠ name
        | some x => ∃ k, x.2 = direntSize * k ∧ entry sb V s.blocks i k = some ⟨x.1, name⟩ ∧
            ∀ l < k, ∀ de, entry sb V s.blocks i l = some de → de.name ≠ name := by
  unfold dirlookupScan
  refine .gets_bind ?_
  rw [← hf.view]
  split
  · rename_i hnot
    exact .panic (.inl ⟨rfl, hnot⟩)
  · rename_i hdir
    have hdir : (V i).type = tDir := by simpa using hdir
    refine .bind ((dirScanAll_runs (k := 0) hf (hsolid hdir)).imp
      (fun _ hm => .inr hm) fun _ _ hr => hr) ?_
    rintro r s' ⟨rfl, m, -, hr, hall, hend⟩
    refine .pure ⟨rfl, hdir, ?_⟩
    have hpassed : ∀ l < m, ∀ de, entry sb V s'.blocks i l = some de → de.name ≠ name := by
      intro l hl de hde hname
      unfold entry at hde
      split at hde
      · rename_i hlive
        cases hde
        have hgo := (hall l (Nat.zero_le l) hl).2
        simp [hlive.2, hname] at hgo
      · cases hde
    rcases hend with ⟨hnone, hsize⟩ | ⟨hsome, hfit, hstop⟩
    · simp only [hnone, Option.map_none]
      intro k de hk
      exact hpassed k (entry_lt hsize hk) de hk
    · simp only [hsome, Option.map_some]
      simp only [decide_eq_true_eq] at hstop
      refine ⟨m, hr, ?_, hpassed⟩
      unfold entry
      rw [if_pos ⟨hfit, hstop.1⟩, ← hstop.2]

/-- `isdirempty` tells whether an entry after the first two is in use. -/
theorem isdirempty_runs (hf : AtFile sb V i e s) (hsolid : Solid sb V s.blocks i) :
    Runs (fun m => m = "isdirempty: readi" ∧ ¬ direntSize ∣ (V i).size.toNat)
      (isdirempty sb e) s fun r s' => s' = s ∧
        (r = true → ∀ k, 2 ≤ k → entry sb V s.blocks i k = none) := by
  unfold isdirempty
  rw [Nat.mul_comm]
  refine .bind (dirScanAll_runs hf hsolid) ?_
  rintro r s' ⟨rfl, m, -, hr, hall, hend⟩
  refine .pure ⟨rfl, fun hempty k hk => ?_⟩
  rcases hend with ⟨hnone, hsize⟩ | ⟨hsome, -, -⟩
  · cases hde : entry sb V s'.blocks i k with
    | none => rfl
    | some de =>
      have hstop := (hall k hk (entry_lt hsize hde)).2
      unfold entry at hde
      split at hde
      · rename_i hlive
        simp [hlive.2] at hstop
      · cases hde
  · rw [hsome] at hempty
    cases hempty

end Scan

/-! ## Replacing an entry -/

section Write

variable {sb : Superblock} {V : ℕ → Dinode} {i k : ℕ} {e : InodeId} {s s' : Fs} {src : Mem}
  {d : Dinode}

/-- Writing one entry replaces it and leaves the others alone. -/
theorem Wrote.entry (h : Wrote sb V i e src (direntSize * k) direntSize direntSize s s' d)
    (hV : V i = (s.itable e).d) (hk : direntSize * k ≤ (V i).size.toNat) (l : ℕ) :
    entry sb (update V i d) s'.blocks i l =
      if l = k then if (Dirent.ofMem src).inum ≠ 0 then some (Dirent.ofMem src) else none
      else RiscvKernel.entry sb V s.blocks i l := by
  have hsize : ((update V i d) i).size.toNat =
      max (V i).size.toNat (direntSize * k + direntSize) := by
    rw [update_self, h.size, hV]
  have hbyte : ∀ l j, j < direntSize →
      fileByte sb (update V i d) s'.blocks i (direntSize * l + j) =
        if l = k then src j else fileByte sb V s.blocks i (direntSize * l + j) := by
    intro l j hj
    rw [h.bytes]
    by_cases hl : l = k
    · rw [if_pos hl, if_pos (by subst hl; omega), hl, Nat.add_sub_cancel_left]
    · rw [if_neg hl, if_neg]
      unfold direntSize at hj ⊢
      omega
  unfold RiscvKernel.entry
  rw [hsize]
  by_cases hl : l = k
  · subst hl
    have hde : dirent sb (update V i d) s'.blocks i l = Dirent.ofMem src := by
      refine Dirent.ofMem_congr fun j hj => ?_
      rw [hbyte l j hj, if_pos rfl]
    rw [hde, if_pos rfl]
    simp only [le_max_right, true_and]
  · have hde : dirent sb (update V i d) s'.blocks i l = dirent sb V s.blocks i l := by
      refine Dirent.ofMem_congr fun j hj => ?_
      rw [hbyte l j hj, if_neg hl]
    have hiff : direntSize * l + direntSize ≤ max (V i).size.toNat (direntSize * k + direntSize) ↔
        direntSize * l + direntSize ≤ (V i).size.toNat := by
      unfold direntSize at hk ⊢
      omega
    rw [hde, if_neg hl]
    simp only [hiff]

/-- A write that stored nothing keeps the entries. -/
theorem Wrote.entry_of_zero {off : ℕ} (h : Wrote sb V i e src off 0 0 s s' d)
    (hV : V i = (s.itable e).d) (hoff : off ≤ (V i).size.toNat) (l : ℕ) :
    RiscvKernel.entry sb (update V i d) s'.blocks i l =
      RiscvKernel.entry sb V s.blocks i l := by
  refine entry_congr ?_ (fun pos => ?_) l
  · apply BitVec.eq_of_toNat_eq
    rw [update_self, h.size, ← hV, Nat.add_zero, max_eq_left hoff]
  · rw [h.bytes, if_neg (by omega)]

/-- Writing one entry to a directory: it is written completely, or nothing is stored. -/
theorem writeEntry_runs (hf : AtFile sb V i e s) (hinum : (s.itable e).inum = i) :
    Runs (fun _ => False) (writei sb e (.kernel src) 0 (direntSize * k) direntSize) s
      fun r s' => (r = direntSize ∧ ∃ d,
          Wrote sb V i e src (direntSize * k) direntSize direntSize s s' d ∧
            direntSize * k + direntSize ≤ maxfile * bsize) ∨
        r ≠ direntSize ∧ (s' = s ∧ ((V i).size.toNat < direntSize * k ∨
            maxfile * bsize < direntSize * k + direntSize) ∨
          (∃ d, Wrote sb V i e src (direntSize * k) 0 0 s s' d) ∧ s.denied < s'.denied ∧
            slotOf sb V s.blocks i (bnSlot (direntSize * k / bsize)) = 0) := by
  refine (writei_runs hf hinum (by decide)).mono ?_
  rintro r s' (⟨rfl, rfl, hbad⟩ | ⟨tot, c, d, rfl, htot, -, hmax, -, hwhole, hw, hcomp⟩)
  · rw [← hf.view] at hbad
    exact .inr ⟨by decide, .inl ⟨rfl, hbad⟩⟩
  · obtain ⟨rfl, -, hshort⟩ := hcomp trivial
    have hsrc : (fun k => (Source.kernel src).mem (0 + k)) = src := by
      funext j
      rw [Nat.zero_add]
      rfl
    rw [hsrc, Nat.add_zero] at hw
    have hcases : tot = 0 ∨ tot = direntSize := by
      unfold bsize at hwhole
      unfold direntSize at hwhole htot ⊢
      omega
    rcases hcases with rfl | rfl
    · obtain ⟨hdenied, pos, hpos, hpos', hslot⟩ := hshort (by decide)
      -- The entry lies in one block.
      have hbn : pos / bsize = direntSize * k / bsize := by
        unfold direntSize bsize at *
        omega
      rw [hbn] at hslot
      exact .inr ⟨by decide, .inr ⟨⟨d, hw⟩, hdenied, hslot⟩⟩
    · exact .inl ⟨rfl, d, hw, hmax⟩

/-- An entry inside the directory lies in a block of it, so writing it is not refused. -/
theorem not_refused {blocks : ℕ → Block} {p : Prop} (hsolid : Solid sb V blocks i)
    (hfit : direntSize * k + direntSize ≤ (V i).size.toNat) :
    ¬ (s' = s ∧ ((V i).size.toNat < direntSize * k ∨
        maxfile * bsize < direntSize * k + direntSize) ∨
      p ∧ s.denied < s'.denied ∧ slotOf sb V blocks i (bnSlot (direntSize * k / bsize)) = 0) := by
  have hpos : 0 < direntSize := by decide
  rintro (⟨-, hbad⟩ | ⟨-, -, hslot⟩)
  · have hmax := hsolid.1
    omega
  · exact hsolid.2 _ (lt_of_le_of_lt (Nat.div_mul_le_self _ _) (by omega)) hslot

/-- The second half of `dirlink` fills a free entry, or changes no entry at all. -/
theorem dirlinkStore_runs (hf : AtFile sb V i e s)
    (hinum : (s.itable e).inum = i) (hsolid : Solid sb V s.blocks i) {name : Name} {inum : ℕ} :
    Runs (fun m => m = "dirlink read" ∧ ¬ direntSize ∣ (V i).size.toNat)
      (dirlinkStore sb e name inum) s fun r s' =>
      (∃ k d, r = some (direntSize * k) ∧ RiscvKernel.entry sb V s.blocks i k = none ∧
          direntSize * k ≤ (V i).size.toNat ∧ direntSize * k + direntSize ≤ maxfile * bsize ∧
          (∀ l < k, RiscvKernel.entry sb V s.blocks i l ≠ none) ∧
          Wrote sb V i e (Dirent.mem ⟨inum, name⟩) (direntSize * k) direntSize direntSize s s' d) ∨
        r = none ∧ (s' = s ∨ ∃ k d, direntSize * k ≤ (V i).size.toNat ∧
          Wrote sb V i e (Dirent.mem ⟨inum, name⟩) (direntSize * k) 0 0 s s' d) ∧
        (∀ l, direntSize * l + direntSize ≤ (V i).size.toNat →
          RiscvKernel.entry sb V s.blocks i l ≠ none) ∧
        (maxfile * bsize < (V i).size.toNat + direntSize ∨ s.denied < s'.denied) := by
  unfold dirlinkStore
  refine .bind (dirScanAll_runs (k := 0) hf hsolid) ?_
  rintro ⟨off, de⟩ s1 ⟨rfl, m, -, rfl, hall, hend⟩
  have hm : direntSize * m ≤ (V i).size.toNat := by
    rcases hend with ⟨-, hsize⟩ | ⟨-, hfit, -⟩
    · cases m with
      | zero => omega
      | succ m => exact (hall m (Nat.zero_le m) (Nat.lt_succ_self m)).1
    · omega
  have hfree : RiscvKernel.entry sb V s1.blocks i m = none := by
    unfold RiscvKernel.entry
    rw [if_neg]
    rintro ⟨hfit, hlive⟩
    rcases hend with ⟨-, hsize⟩ | ⟨-, -, hstop⟩
    · have : 0 < direntSize := by decide
      omega
    · exact hlive (by simpa using hstop)
  have hused : ∀ l < m, RiscvKernel.entry sb V s1.blocks i l ≠ none := by
    intro l hl
    obtain ⟨hfit, hstop⟩ := hall l (Nat.zero_le l) hl
    unfold RiscvKernel.entry
    rw [if_pos ⟨hfit, by simpa using hstop⟩]
    exact Option.some_ne_none _
  refine .bind ((writeEntry_runs hf hinum).imp
    (fun _ hf => hf.elim) fun _ _ hr => hr) ?_
  rintro n s' (⟨rfl, d, hw, hmax⟩ | ⟨hne, hpost⟩)
  · exact .pure (.inl ⟨m, d, if_pos rfl, hfree, hm, hmax, hused, hw⟩)
  · -- A free entry inside the directory can always be written.
    have hfull : (V i).size.toNat ≤ direntSize * m := by
      rcases hend with ⟨-, hsize⟩ | ⟨-, hfit, -⟩
      · exact hsize
      · exact absurd hpost (not_refused hsolid hfit)
    have hall' : ∀ l, direntSize * l + direntSize ≤ (V i).size.toNat →
        RiscvKernel.entry sb V s1.blocks i l ≠ none := by
      intro l hl
      refine hused l (Nat.lt_of_mul_lt_mul_left (a := direntSize) ?_)
      have hpos : 0 < direntSize := by decide
      omega
    refine .pure (.inr ⟨if_neg hne, ?_, hall', ?_⟩)
    · rcases hpost with ⟨rfl, -⟩ | ⟨⟨d, hw⟩, -, -⟩
      · exact .inl rfl
      · exact .inr ⟨m, d, hm, hw⟩
    · rcases hpost with ⟨-, hbad⟩ | ⟨-, hdenied, -⟩
      · exact .inl (by omega)
      · exact .inr hdenied

/-- Clearing an entry; it is refused only outside the directory. -/
theorem clearDirent_runs (hf : AtFile sb V i e s)
    (hinum : (s.itable e).inum = i) (hsolid : Solid sb V s.blocks i) :
    Runs (fun m => m = "unlink: writei" ∧ (V i).size.toNat < direntSize * k + direntSize)
      (clearDirent sb e (direntSize * k)) s fun _ s' => ∃ d,
        direntSize * k + direntSize ≤ maxfile * bsize ∧
          Wrote sb V i e (fun _ => 0) (direntSize * k) direntSize direntSize s s' d := by
  unfold clearDirent
  refine .bind ((writeEntry_runs hf hinum).imp
    (fun _ hf => hf.elim) fun _ _ hr => hr) ?_
  rintro n s' (⟨rfl, d, hw, hmax⟩ | ⟨hne, hpost⟩)
  · rw [if_pos rfl]
    exact .pure ⟨d, hmax, hw⟩
  · rw [if_neg hne]
    refine .panic ⟨rfl, ?_⟩
    by_contra hfit
    exact not_refused hsolid (by omega) hpost

end Write

end RiscvKernel
