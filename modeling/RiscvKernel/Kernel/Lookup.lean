import RiscvKernel.Kernel.Syscalls
import RiscvKernel.Kernel.Walk

/-!
# Looking up names

What a process that runs alone knows after `iget`, `dirlookup` and `namex`: a reference to the
inode that it has found, or nothing has changed.
-/

namespace RiscvKernel

open Threads

section Lookup

variable {P : Type} {sb : Superblock} {p : P} {s0 s : Kernel P} {G B : Facts}
  {e : InodeId} {i : ℕ}

/-- The rule for a section on the file system. -/
theorem fsCall_ends {α : Type} {m : FsM α} {Q : α → Fs → Prop} (hm : Seq.After m s.fs Q) :
    Ends p (fsCall m) s fun a s' => Q a s'.fs ∧ s'.cwd = s.cwd := by
  refine Ends.step fun a s' w hdone => ?_
  cases hrun : m s.fs <;> rw [hrun] at hdone
  case ok b fs =>
    cases hdone
    exact ⟨hm a fs hrun, rfl⟩
  all_goals cases hdone

/-- `begin_op`. -/
theorem Solo.beginFs (h : Solo sb s0 s G) : Ends p beginFs s fun _ s' => Solo sb s0 s' G :=
  Ends.update (h.next rfl h.clean)

/-- `end_op`. -/
theorem Solo.endFs (h : Solo sb s0 s G) : Ends p endFs s fun _ s' => Solo sb s0 s' G :=
  Ends.update (h.next rfl h.clean)

/-- `iget` takes a reference. -/
theorem Solo.iget (h : Solo sb s0 s G) (hi : i < sb.ninodes) :
    Ends p (iget i) s fun e s' => G.Place e i ∧ Solo sb s0 s' (G.got e i) := by
  refine iget_returns.after.mono ?_
  rintro e s' ⟨hgot, hsame, -⟩
  obtain ⟨hplace, hclean⟩ := h.clean.gotInode hgot hi
  exact ⟨hplace, h.next hsame hclean⟩

/-- `idup` takes a reference to the current directory. -/
theorem Solo.idupCwd (h : Solo sb s0 s G) (hcwd : ∀ e, s0.cwd p = some e → 0 < G.ref e) :
    Ends p idupCwd s fun e s' => ∃ i < sb.ninodes, G.Place e i ∧ Solo sb s0 s' (G.got e i) := by
  refine Ends.step fun e s' w hdone => ?_
  cases hfind : s.cwd p with
  | none =>
    rw [hfind] at hdone
    cases hdone
  | some x =>
    rw [hfind] at hdone
    cases hdone
    have hpos : 0 < G.ref e := hcwd e (by rw [← h.cwd, hfind])
    exact ⟨G.inum e, (h.clean.inum e hpos).2, Facts.place_of_ref hpos,
      h.next rfl (h.clean.got_used hpos)⟩

/-- The number of an inode in use. -/
theorem Solo.inumOf (h : Solo sb s0 s G) (he : 0 < G.ref e) :
    Ends p (inumOf e) s fun r s' => r = G.inum e ∧ Solo sb s0 s' G :=
  Ends.read ⟨(h.clean.inum e he).1, h⟩

/-- A reference to what has been found, or nothing has changed. -/
def Found (sb : Superblock) (s0 : Kernel P) (B : Facts) : Option InodeId → Kernel P → Prop
  | none, s => Solo sb s0 s B
  | some n, s => ∃ j < sb.ninodes, B.Place n j ∧ Solo sb s0 s (B.got n j)

/-- `dirlookup` takes a reference to the inode that it finds. -/
theorem Solo.dirlookup {name : Name} {x : Seen} (h : Solo sb s0 s G) (he : 0 < G.ref e)
    (hl : e ∈ G.loaded) (hx : G.seen (G.inum e) = some x) :
    Ends p (dirlookup sb e name) s fun r s' => Found sb s0 G (r.map Prod.fst) s' ∧
      ∀ n off, r = some (n, off) → ∃ k, off = direntSize * k ∧ direntSize * k ≤ x.size.toNat := by
  refine Ends.bind (fsCall_ends (h.clean.dirlookupScan_after he hl hx)) ?_
  rintro r s1 ⟨⟨hfs, hr⟩, hsame⟩
  have h1 : Solo sb s0 s1 G := h.next hsame (by rw [hfs]; exact h.clean)
  cases r with
  | none => exact Ends.ret ⟨h1, nofun⟩
  | some found =>
    obtain ⟨inum, off⟩ := found
    obtain ⟨hi, hoff⟩ := hr inum off rfl
    refine (h1.iget hi).bind fun n s2 h2 => Ends.ret ⟨⟨inum, hi, h2⟩, ?_⟩
    rintro n off ⟨⟩
    exact hoff

/-- Every element of a path makes it shorter. -/
theorem length_skipelem {path rest : List UInt8} {name : Name}
    (h : skipelem path = some (name, rest)) : rest.length < path.length := by
  unfold skipelem at h
  have hle := (List.dropWhile_suffix (l := path) (· = slash)).length_le
  split at h
  · cases h
  · rename_i c cs hpath
    cases h
    rw [hpath, List.length_cons] at hle
    have hdrop : ((c :: cs).dropWhile (· ≠ slash)).length ≤ cs.length := by
      rw [List.dropWhile_cons_of_pos (by simpa using ne_slash_of_dropWhile hpath)]
      exact (List.dropWhile_suffix _).length_le
    have hrest := (List.dropWhile_suffix
      (l := (c :: cs).dropWhile (· ≠ slash)) (· = slash)).length_le
    omega

variable [DecidableEq P]

/-- The loop of `namex`. -/
theorem Solo.namexFrom {parent : Bool} {fuel : ℕ} {path : List UInt8} (hno : B.NoOrphans)
    (h : Solo sb s0 s (B.got e i)) (hplace : B.Place e i) (hi : i < sb.ninodes)
    (hfuel : path.length < fuel) :
    Ends p (namexFrom sb parent fuel e path) s fun r => Found sb s0 B (r.map Prod.fst) := by
  induction fuel generalizing s e i path with
  | zero => exact absurd hfuel (Nat.not_lt_zero _)
  | succ fuel ih =>
    have hself : (B.got e i).ref e = B.ref e + 1 := Facts.got_ref_self
    have hpos := hplace.got_pos
    rw [namexFrom.eq_2]
    cases hskip : skipelem path with
    | none =>
      dsimp only
      split
      · refine (h.iput_keep hpos (hno.keep hplace rfl Facts.got_inum_self (by omega))).bind
          fun u s1 h1 => Ends.ret ?_
        exact h1.implies hplace.put_got
      · exact Ends.ret ⟨i, hi, hplace, h⟩
    | some found =>
      have hrest := length_skipelem hskip
      dsimp only
      refine (h.ilock hpos).bind ?_
      rintro d s1 ⟨h1, bytes, hx⟩
      -- Every way out gives the reference back.
      have hout : ∀ t, Solo sb s0 t ((B.got e i).load e) → Ends p (do
          iunlockput sb e
          return none) t fun r : Option (InodeId × Name) => Found sb s0 B (r.map Prod.fst) :=
        fun t ht => (ht.drop hno hplace).bind fun u t1 ht1 => Ends.ret ht1
      split
      · exact hout s1 h1
      split
      · refine h1.iunlock.bind fun u s2 h2 => Ends.ret ?_
        exact ⟨i, hi, hplace, h2.implies Facts.load_implies⟩
      refine (h1.dirlookup hpos (Set.mem_insert _ _) hx).bind ?_
      rintro r s2 ⟨h2, -⟩
      cases r with
      | none => exact hout s2 h2
      | some next =>
        obtain ⟨j, hj, hplace', h2⟩ := h2
        refine (h2.advance hno hplace hplace').bind fun u s3 h3 => ?_
        exact ih h3 (hplace.of_got hplace') hj (by omega)

/-- `namex`. -/
theorem Solo.namex {parent : Bool} {path : List UInt8} (h : Solo sb s0 s B) (hno : B.NoOrphans)
    (hcwd : ∀ e, s0.cwd p = some e → 0 < B.ref e) :
    Ends p (namex sb parent path) s fun r => Found sb s0 B (r.map Prod.fst) := by
  unfold RiscvKernel.namex
  split
  · refine (h.iget sb.root_lt).bind ?_
    rintro e s1 ⟨hplace, h1⟩
    exact h1.namexFrom hno hplace sb.root_lt (Nat.lt_succ_self _)
  · refine (h.idupCwd hcwd).bind ?_
    rintro e s1 ⟨i, hi, hplace, h1⟩
    exact h1.namexFrom hno hplace hi (Nat.lt_succ_self _)

end Lookup

end RiscvKernel
