import RiscvKernel.Sys.Inv

/-!
# Open files and pipes

Each function that changes the table of open files keeps the counters exact, for a count of
references that the caller holds. The page of a pipe is freed together with its last end.
-/

namespace RiscvKernel.Sys

open Threads Function
open Threads.Seq (Runs)
open Bytes (blit_outside num num_put_disjoint num_put_same)

variable {img : KernelImage} {all T : Set ℕ} {eager : Prop} {s s' s'' : State}
  {cnt cnt' : FileId → ℕ} {files files' : FileId → File} {f f' : FileId} {a : ℕ} {w : Bool}
  {p q : ProcId} {E : String → Prop}

/-! ## The table of open files -/

/-- One reference more. -/
def gain (cnt : FileId → ℕ) (f : FileId) : FileId → ℕ := update cnt f (cnt f + 1)

/-- One reference less. -/
def drop (cnt : FileId → ℕ) (f : FileId) : FileId → ℕ := update cnt f (cnt f - 1)

@[simp] theorem drop_gain (cnt : FileId → ℕ) (f : FileId) : drop (gain cnt f) f = cnt := by
  funext g
  by_cases h : g = f
  · subst h
    simp [drop, gain]
  · simp [drop, gain, h]

/-- A pipe with an end. -/
theorem mem_livePipes : a ∈ livePipes files ↔ ∃ f w, IsEnd files f a w := by
  constructor
  · rintro ⟨f, htype, hpipe⟩
    exact ⟨f, (files f).writable, htype, hpipe, rfl⟩
  · rintro ⟨f, w, htype, hpipe, -⟩
    exact ⟨f, htype, hpipe⟩

theorem livePipes_congr (h : ∀ f a w, IsEnd files' f a w ↔ IsEnd files f a w) :
    livePipes files' = livePipes files := by
  ext a
  simp only [mem_livePipes, h]

/-- The pipes do not change while their ends do not. -/
theorem FileInv.congr {mem : ℕ → UInt8} (h : FileInv files mem cnt)
    (hends : ∀ f a w, IsEnd files' f a w ↔ IsEnd files f a w)
    (href : ∀ f, (files' f).ref = cnt' f)
    (hclosed : ∀ f, (files' f).ref = 0 → (files' f).type = .none)
    (hside : ∀ f, (files' f).type = .pipe → (files' f).readable = !(files' f).writable) :
    FileInv files' mem cnt' := by
  refine ⟨href, hclosed, hside, fun f f' a w hf hf' => ?_, fun f a w hf => ?_, fun a ha w hw => ?_⟩
  · exact h.ends f f' a w ((hends f a w).mp hf) ((hends f' a w).mp hf')
  · exact h.opened f a w ((hends f a w).mp hf)
  · rw [livePipes_congr hends] at ha
    exact h.shut a ha w fun f hf => hw f ((hends f a w).mpr hf)

/-- The ends of pipes when a file changes. -/
theorem isEnd_update {x : File} : IsEnd (update files f x) f' a w ↔
    if f' = f then x.type = .pipe ∧ x.pipe = a ∧ x.writable = w else IsEnd files f' a w := by
  by_cases h : f' = f
  · subst h
    rw [if_pos rfl, IsEnd, update_self]
  · rw [if_neg h, IsEnd, update_of_ne h]
    rfl

/-- An entry changes, but not as an end of a pipe. -/
theorem FileInv.set {mem : ℕ → UInt8} {x : File} {n : ℕ} (h : FileInv files mem cnt)
    (hends : ∀ a w, x.type = .pipe ∧ x.pipe = a ∧ x.writable = w ↔ IsEnd files f a w)
    (href : x.ref = n) (hclosed : n = 0 → x.type = .none)
    (hside : x.type = .pipe → x.readable = !x.writable) :
    FileInv (update files f x) mem (update cnt f n) ∧
      livePipes (update files f x) = livePipes files := by
  have hiff : ∀ f' a w, IsEnd (update files f x) f' a w ↔ IsEnd files f' a w := by
    intro f' a w
    rw [isEnd_update]
    split
    next heq => rw [heq, hends a w]
    next => rfl
  refine ⟨h.congr hiff (fun g => ?_) (fun g => ?_) fun g => ?_, livePipes_congr hiff⟩
  · by_cases hg : g = f
    · subst hg
      rw [update_self, update_self, href]
    · rw [update_of_ne hg, update_of_ne hg, h.ref g]
  · by_cases hg : g = f
    · subst hg
      rw [update_self]
      exact fun hz => hclosed (by omega)
    · rw [update_of_ne hg]
      exact h.closed g
  · by_cases hg : g = f
    · subst hg
      rw [update_self]
      exact hside
    · rw [update_of_ne hg]
      exact h.side g

/-- An entry that is no end of a pipe stays none. -/
theorem FileInv.set_other {mem : ℕ → UInt8} {x : File} {n : ℕ} (h : FileInv files mem cnt)
    (htype : (files f).type ≠ .pipe) (htype' : x.type ≠ .pipe) (href : x.ref = n)
    (hclosed : n = 0 → x.type = .none) :
    FileInv (update files f x) mem (update cnt f n) ∧
      livePipes (update files f x) = livePipes files :=
  h.set (fun _ _ => ⟨fun hx => absurd hx.1 htype', fun hx => absurd hx.1 htype⟩) href hclosed
    fun hx => absurd hx htype'

/-- Only the counter of an entry changes. -/
theorem FileInv.set_ref {mem : ℕ → UInt8} {r : ℤ} {n : ℕ} (h : FileInv files mem cnt)
    (href : r = n) (hpos : n = 0 → (files f).type = .none) :
    FileInv (update files f { files f with ref := r }) mem (update cnt f n) ∧
      livePipes (update files f { files f with ref := r }) = livePipes files :=
  h.set (fun _ _ => Iff.rfl) href hpos (h.side f)

/-- A file without references is free. -/
theorem FileInv.type_of_zero {mem : ℕ → UInt8} (h : FileInv files mem cnt) (hf : cnt f = 0) :
    (files f).type = .none := by
  refine h.closed f ?_
  rw [h.ref f, hf]
  rfl

/-- Only open files and pipes have changed. -/
structure FileStep (s s' : State) : Prop where
  /-- The process table is the same. -/
  procs : s'.procs = s.procs
  /-- So is `initproc`. -/
  initproc : s'.initproc = s.initproc
  /-- Every process has the memory it had. -/
  space : ∀ q, SameSpace s s' q

theorem FileStep.refl (s : State) : FileStep s s := ⟨rfl, rfl, SameSpace.refl s⟩

theorem FileStep.trans (h : FileStep s s') (h' : FileStep s' s'') : FileStep s s'' :=
  ⟨h'.procs.trans h.procs, h'.initproc.trans h.initproc, fun q => (h.space q).trans (h'.space q)⟩

/-- A change of the table that leaves memory alone. -/
theorem Inv.set_files (h : Inv img all eager s T cnt)
    (hfiles : FileInv files' s.vm.mem cnt' ∧ livePipes files' = livePipes s.files) :
    Inv img all eager { s with files := files' } T cnt' ∧
      FileStep s { s with files := files' } := by
  have hm : Moves img s.vm s.vm (livePipes s.files) (livePipes files') := by
    rw [hfiles.2]
    exact Moves.refl (h.shares.owns .pipes)
  obtain ⟨hinv, hsame⟩ :
      Inv img all eager { s with files := files' } T cnt' ∧
        ∀ q, SameSpace s { s with files := files' } q := h.step_files hm rfl hfiles.1
  exact ⟨hinv, rfl, rfl, hsame⟩

/-- `filealloc` takes an entry without references. -/
theorem filealloc_runs (h : Inv img all eager s T cnt) :
    Runs E filealloc s fun r s' =>
      (r = none ∧ s' = s) ∨
      ∃ f, r = some f ∧ cnt f = 0 ∧ s'.vm = s.vm ∧
        s'.files = update s.files f { s.files f with ref := 1 } ∧
        Inv img all eager s' T (gain cnt f) ∧ FileStep s s' := by
  unfold filealloc
  refine .gets_bind ?_
  cases hfind : (List.finRange nfile).find? fun f => (s.files f).ref = 0 with
  | none => exact .pure (.inl ⟨rfl, rfl⟩)
  | some f =>
    have hzero : (s.files f).ref = 0 := by simpa using List.find?_some hfind
    have hcnt : cnt f = 0 := by
      have := h.files.ref f
      omega
    refine .modify_bind (.pure (.inr ⟨f, rfl, hcnt, rfl, rfl, ?_⟩))
    exact h.set_files (h.files.set_ref (by rw [hcnt]; rfl) (by omega))

/-- `filedup` adds a reference. -/
theorem filedup_runs (h : Inv img all eager s T cnt) (hf : 0 < cnt f) :
    Runs E (filedup f) s fun _ s' => Inv img all eager s' T (gain cnt f) ∧ FileStep s s' ∧
      livePipes s'.files = livePipes s.files := by
  unfold filedup
  have href := h.files.ref f
  refine .gets_bind ?_
  rw [if_neg (by omega)]
  have hset := h.files.set_ref (f := f) (r := (s.files f).ref + 1) (n := cnt f + 1)
    (by rw [href]; rfl) (by omega)
  exact .modify ⟨(h.set_files hset).1, (h.set_files hset).2, hset.2⟩

/-! ## Pipes -/

theorem endOff_add_le (w : Bool) : endOff w + 4 ≤ pgsize := by revert w; decide

/-- Clearing the flag of one end. -/
theorem num_endOff_put (mem : ℕ → UInt8) (a : ℕ) (w : Bool) :
    num (Bytes.put mem (a + endOff w) 4 0) (a + endOff w) 4 = 0 ∧
    num (Bytes.put mem (a + endOff w) 4 0) (a + endOff (!w)) 4 =
      num mem (a + endOff (!w)) 4 := by
  refine ⟨num_put_same _ _ _ _, num_put_disjoint _ ?_⟩
  cases w
  · exact .inr (by simp [endOff, readopenOff, writeopenOff])
  · exact .inl (by simp [endOff, readopenOff, writeopenOff])

/-- `pipeclose` clears the flag of an end, and frees the page when both are clear. -/
theorem pipeclose_runs {vm : Vm} (ho : Owns img vm {a}) (ha : IsPage img a) :
    Runs E (pipeclose img a w) vm fun _ vm' =>
      (num vm.mem (a + endOff (!w)) 4 = 0 ∧ Moves img vm vm' {a} ∅) ∨
      (num vm.mem (a + endOff (!w)) 4 ≠ 0 ∧ Moves img vm vm' {a} {a} ∧
        num vm'.mem (a + endOff w) 4 = 0 ∧
        num vm'.mem (a + endOff (!w)) 4 = num vm.mem (a + endOff (!w)) 4) := by
  have heq : pipeclose img a w = store32 (a + endOff w) 0 >>= fun _ => do
      let readopen ← load32 (a + readopenOff)
      let writeopen ← load32 (a + writeopenOff)
      if readopen = 0 ∧ writeopen = 0 then kfree img a else return () := by
    cases w <;> rfl
  have hflags : ∀ mem : ℕ → UInt8, num mem (a + endOff w) 4 = 0 →
      (num mem (a + readopenOff) 4 = 0 ∧ num mem (a + writeopenOff) 4 = 0 ↔
        num mem (a + endOff (!w)) 4 = 0) := by
    intro mem hw
    cases w
    · exact ⟨fun h => h.2, fun h => ⟨hw, h⟩⟩
    · exact ⟨fun h => h.1, fun h => ⟨h, hw⟩⟩
  rw [heq]
  obtain ⟨hzero, hother⟩ := num_endOff_put vm.mem a w
  have hm : Moves img vm (vm.setMem (Bytes.put vm.mem (a + endOff w) 4 0)) {a} {a} :=
    Moves.blit ho rfl _ _ (endOff_add_le w) _
  refine .modify_bind (.gets_bind (.gets_bind ?_))
  split
  next hboth =>
    have hopen := hother.symm.trans ((hflags _ hzero).mp hboth)
    exact (kfree_runs hm.owns ha).mono fun _ _ hfree => .inl ⟨hopen, hm.trans hfree⟩
  next hnot =>
    have hopen : num vm.mem (a + endOff (!w)) 4 ≠ 0 :=
      fun hz => hnot ((hflags _ hzero).mpr (hother.trans hz))
    exact .pure (.inr ⟨hopen, hm, hzero, hother⟩)

/-- An entry after `fileclose`. -/
def File.close (x : File) : File :=
  if x.ref - 1 > 0 then { x with ref := x.ref - 1 } else { x with ref := 0, type := .none }

section LastEnd

variable {vm vm' : Vm} {x : File}

/-- The ends that are left when one is closed. -/
theorem isEnd_closed (hx : x.type = .none) :
    IsEnd (update files f x) f' a w ↔ f' ≠ f ∧ IsEnd files f' a w := by
  rw [isEnd_update]
  split
  next heq => simp [heq, hx]
  next hne => simp [hne]

/-- The files after an end of a pipe was closed: the other pipes are untouched, and of this one
only the other end can be left. -/
theorem FileInv.close_end (h : FileInv files vm.mem cnt) (hf : IsEnd files f a w)
    (hx : x.type = .none) (href : x.ref = 0)
    (hsame : ∀ b ∈ livePipes files, b ≠ a → SamePage vm vm' b)
    (hflag : (∃ g, IsEnd files g a (!w)) → num vm'.mem (a + endOff w) 4 = 0 ∧
      num vm'.mem (a + endOff (!w)) 4 = 1) :
    FileInv (update files f x) vm'.mem (update cnt f 0) := by
  have hthis : ∀ g w', g ≠ f → IsEnd files g a w' → w' = !w := by
    intro g w' hne hg
    refine Bool.eq_not.mpr fun hw => hne (h.ends g f a w (hw ▸ hg) hf)
  refine ⟨fun g => ?_, fun g => ?_, fun g => ?_, fun g g' b w' hg hg' => ?_, fun g b w' hg => ?_,
    fun b hb w' hnone => ?_⟩
  · by_cases hg : g = f
    · subst hg
      rw [update_self, update_self, href]
      rfl
    · rw [update_of_ne hg, update_of_ne hg, h.ref g]
  · by_cases hg : g = f
    · subst hg
      rw [update_self]
      exact fun _ => hx
    · rw [update_of_ne hg]
      exact h.closed g
  · by_cases hg : g = f
    · subst hg
      rw [update_self, hx]
      exact fun hn => by cases hn
    · rw [update_of_ne hg]
      exact h.side g
  · exact h.ends g g' b w' ((isEnd_closed hx).mp hg).2 ((isEnd_closed hx).mp hg').2
  · obtain ⟨hne, hg⟩ := (isEnd_closed hx).mp hg
    by_cases hba : b = a
    · subst hba
      have hw' := hthis g w' hne hg
      rw [hw'] at hg ⊢
      exact (hflag ⟨g, hg⟩).2
    · rw [num_congr_page (hsame b (mem_livePipes.mpr ⟨g, w', hg⟩) hba) (endOff_add_le w')]
      exact h.opened g b w' hg
  · obtain ⟨g, w'', hg⟩ := mem_livePipes.mp hb
    obtain ⟨hne, hg⟩ := (isEnd_closed hx).mp hg
    by_cases hba : b = a
    · subst hba
      have hw'' := hthis g w'' hne hg
      by_cases hw : w' = w
      · rw [hw]
        exact (hflag ⟨g, hw'' ▸ hg⟩).1
      · have hww : w' = w'' := hw''.symm ▸ Bool.eq_not.mpr hw
        exact absurd ((isEnd_closed hx).mpr ⟨hne, hww ▸ hg⟩) (hnone g)
    · have hlive : b ∈ livePipes files := mem_livePipes.mpr ⟨g, w'', hg⟩
      rw [num_congr_page (hsame b hlive hba) (endOff_add_le w')]
      refine h.shut b hlive w' fun g' hg' => hnone g' ((isEnd_closed hx).mpr ⟨?_, hg'⟩)
      rintro rfl
      exact hba (hg'.2.1.symm.trans hf.2.1)

/-- The pipes that are left when an end is closed. -/
theorem livePipes_closed (hf : IsEnd files f a w) (hx : x.type = .none)
    (hends : ∀ f f' a w, IsEnd files f a w → IsEnd files f' a w → f = f') :
    ((∃ g, IsEnd files g a (!w)) → livePipes (update files f x) = livePipes files) ∧
    ((∀ g, ¬ IsEnd files g a (!w)) →
      livePipes (update files f x) = livePipes files \ {a}) := by
  constructor
  · rintro ⟨g, hg⟩
    ext b
    simp only [mem_livePipes, isEnd_closed hx]
    constructor
    · rintro ⟨g', w', -, hg'⟩
      exact ⟨g', w', hg'⟩
    · rintro ⟨g', w', hg'⟩
      by_cases hgf : g' = f
      · subst hgf
        have hba : b = a := hg'.2.1.symm.trans hf.2.1
        refine ⟨g, !w, ?_, hba ▸ hg⟩
        rintro rfl
        exact absurd (hg.2.2.symm.trans hf.2.2) (by simp)
      · exact ⟨g', w', hgf, hg'⟩
  · intro hnone
    ext b
    simp only [Set.mem_sdiff, Set.mem_singleton_iff, mem_livePipes, isEnd_closed hx]
    constructor
    · rintro ⟨g, w', hne, hg⟩
      refine ⟨⟨g, w', hg⟩, ?_⟩
      rintro rfl
      by_cases hw : w' = w
      · exact hne (hends g f b w (hw ▸ hg) hf)
      · exact hnone g (Bool.eq_not.mpr hw ▸ hg)
    · rintro ⟨⟨g, w', hg⟩, hba⟩
      refine ⟨g, w', ?_, hg⟩
      rintro rfl
      exact hba (hg.2.1.symm.trans hf.2.1)

end LastEnd

/-- Closing the last reference to an end of a pipe. -/
theorem closeEnd_runs {x : File} (h : Inv img all eager s T cnt) (hend : IsEnd s.files f a w)
    (hone : cnt f = 1) (hx : x.type = .none) (href : x.ref = 0) :
    Runs E (lift (pipeclose img a w)) { s with files := update s.files f x }
      fun _ s' => Inv img all eager s' T (drop cnt f) ∧ FileStep s s' ∧
        s'.files = update s.files f x := by
  have hlive : a ∈ livePipes s.files := mem_livePipes.mpr ⟨f, w, hend⟩
  have howns : Owns img s.vm (livePipes s.files) := h.shares.owns .pipes
  have hpage : IsPage img a := h.shares.isPage (show _ ∈ share s T .pipes from hlive)
  have hrest : Owns img s.vm (livePipes s.files \ {a}) := howns.mono Set.sdiff_subset
  have hsplit : ({a} : Set ℕ) ∪ (livePipes s.files \ {a}) = livePipes s.files :=
    Set.union_sdiff_cancel (Set.singleton_subset_iff.mpr hlive)
  have hpipes := livePipes_closed (x := x) hend hx h.files.ends
  have hdrop : drop cnt f = update cnt f 0 := by rw [drop, hone]
  have hinv : ∀ vm' B, Moves img s.vm vm' {a} B →
      B ∪ (livePipes s.files \ {a}) = livePipes (update s.files f x) →
      ((∃ g, IsEnd s.files g a (!w)) → num vm'.mem (a + endOff w) 4 = 0 ∧
        num vm'.mem (a + endOff (!w)) 4 = 1) →
      Inv img all eager { s with vm := vm', files := update s.files f x } T
        (drop cnt f) ∧
      FileStep s { s with vm := vm', files := update s.files f x } := by
    intro vm' B hm hB hflag
    have hmove : Moves img s.vm vm' (livePipes s.files) (livePipes (update s.files f x)) :=
      (hm.union hrest fun b hb => hb.2).of_eq hsplit hB
    obtain ⟨hI, hspace⟩ :
        Inv img all eager { s with vm := vm', files := update s.files f x } T
          (drop cnt f) ∧ ∀ q, SameSpace s _ q :=
      h.step_files hmove rfl (hdrop ▸ h.files.close_end hend hx href
        (fun b hb hne => hm.same hrest (fun b hb => hb.2) ⟨hb, hne⟩) hflag)
    exact ⟨hI, rfl, rfl, hspace⟩
  refine lift_runs (pipeclose_runs (howns.mono (Set.singleton_subset_iff.mpr hlive)) hpage) ?_
  rintro _ vm' (⟨hzero, hm⟩ | ⟨hne, hm, hthis, hthat⟩)
  · have hnone : ∀ g, ¬ IsEnd s.files g a (!w) := by
      intro g hg
      exact absurd ((h.files.opened g _ _ hg).symm.trans hzero) (by decide)
    obtain ⟨hI, hS⟩ := hinv vm' ∅ hm (by rw [hpipes.2 hnone, Set.empty_union])
      fun ⟨g, hg⟩ => absurd hg (hnone g)
    exact ⟨hI, hS, rfl⟩
  · have hsome : ∃ g, IsEnd s.files g a (!w) := by
      by_contra hno
      exact hne (h.files.shut a hlive (!w) fun g hg => hno ⟨g, hg⟩)
    obtain ⟨hI, hS⟩ := hinv vm' {a} hm (by rw [hpipes.1 hsome, hsplit]) fun ⟨g, hg⟩ =>
      ⟨hthis, hthat.trans (h.files.opened g _ _ hg)⟩
    exact ⟨hI, hS, rfl⟩

/-- `fileclose` drops a reference, and frees the page of a pipe with its last end. -/
theorem fileclose_runs (h : Inv img all eager s T cnt) (hf : 0 < cnt f) :
    Runs E (fileclose img f) s fun _ s' =>
      Inv img all eager s' T (drop cnt f) ∧ FileStep s s' ∧
      s'.files = update s.files f (s.files f).close := by
  have href := h.files.ref f
  unfold fileclose
  refine .gets_bind ?_
  rw [if_neg (by omega)]
  by_cases hmore : (s.files f).ref - 1 > 0
  · rw [if_pos hmore]
    have hset := h.set_files (h.files.set_ref (r := (s.files f).ref - 1) (n := cnt f - 1) (f := f)
      (by omega) (by omega))
    refine .modify ⟨hset.1, hset.2, ?_⟩
    rw [File.close, if_pos hmore]
  · rw [if_neg hmore]
    have hone : cnt f = 1 := by omega
    have hclose : (s.files f).close = { s.files f with ref := 0, type := .none } := by
      rw [File.close, if_neg hmore]
    refine .of_eq_bind (a := ())
      (t := { s with files := update s.files f (s.files f).close })
      (by rw [hclose]; rfl) ?_
    by_cases htype : (s.files f).type = .pipe
    · rw [if_pos htype]
      exact closeEnd_runs h ⟨htype, rfl, rfl⟩ hone (by rw [hclose]) (by rw [hclose])
    · rw [if_neg htype]
      have hset := h.set_files (h.files.set_other (x := (s.files f).close) (n := cnt f - 1) htype
        (by rw [hclose]; simp) (by rw [hclose, hone]; rfl) fun _ => by rw [hclose])
      exact .pure ⟨hset.1, hset.2, rfl⟩

/-- The end of a new pipe with read end `f0` and write end `f1`. -/
def endOf (f0 f1 : FileId) (w : Bool) : FileId := if w then f1 else f0

/-- The files after a pipe was made of two entries. -/
theorem FileInv.add_pipe {vm vm' : Vm} {f0 f1 : FileId} {x : Bool → File}
    (h : FileInv files vm.mem cnt) (hne : f0 ≠ f1)
    (htype : ∀ w, (files (endOf f0 f1 w)).type ≠ .pipe) (hcnt : ∀ w, cnt (endOf f0 f1 w) ≠ 0)
    (hx : ∀ w, x w = { files (endOf f0 f1 w) with
      type := .pipe, readable := !w, writable := w, pipe := a })
    (hnew : a ∉ livePipes files) (hsame : ∀ b ∈ livePipes files, SamePage vm vm' b)
    (hflag : ∀ w, num vm'.mem (a + endOff w) 4 = 1) :
    FileInv (update (update files f0 (x false)) f1 (x true)) vm'.mem cnt ∧
      livePipes (update (update files f0 (x false)) f1 (x true)) =
        {a} ∪ livePipes files := by
  generalize hfiles' : update (update files f0 (x false)) f1 (x true) = files'
  have hend : ∀ w, files' (endOf f0 f1 w) = x w := by
    intro w
    rw [← hfiles']
    cases w
    · exact (update_of_ne hne _ _).trans (update_self _ _ _)
    · exact update_self _ _ _
  have hrest : ∀ g, (∀ w, g ≠ endOf f0 f1 w) → files' g = files g := by
    intro g hg
    rw [← hfiles']
    exact (update_of_ne (hg true) _ _).trans (update_of_ne (hg false) _ _)
  -- An entry is an end of the new pipe, or what it was before.
  have hcases : ∀ g, (∃ w, g = endOf f0 f1 w) ∨ ∀ w, g ≠ endOf f0 f1 w := by
    intro g
    by_cases hg : ∃ w, g = endOf f0 f1 w
    · exact .inl hg
    · exact .inr fun w heq => hg ⟨w, heq⟩
  have hiff : ∀ g b w, IsEnd files' g b w ↔ (g = endOf f0 f1 w ∧ b = a) ∨ IsEnd files g b w := by
    intro g b w
    obtain ⟨w', rfl⟩ | hg := hcases g
    · have hinj : endOf f0 f1 w' = endOf f0 f1 w ↔ w' = w := by
        cases w <;> cases w' <;> simp [endOf, hne, Ne.symm hne]
      have hold : ¬ IsEnd files (endOf f0 f1 w') b w := fun hend => htype w' hend.1
      rw [IsEnd, hend, hx, hinj]
      simp only [hold, or_false, true_and]
      exact ⟨fun ⟨hb, hw⟩ => ⟨hw, hb.symm⟩, fun ⟨hw, hb⟩ => ⟨hb.symm, hw⟩⟩
    · rw [IsEnd, hrest g hg]
      exact ⟨.inr, fun hor => hor.elim (fun heq => absurd heq.1 (hg w)) id⟩
  have hpipes : livePipes files' = {a} ∪ livePipes files := by
    ext b
    simp only [Set.mem_union, Set.mem_singleton_iff, mem_livePipes, hiff]
    constructor
    · rintro ⟨g, w, ⟨-, rfl⟩ | hg⟩
      · exact .inl rfl
      · exact .inr ⟨g, w, hg⟩
    · rintro (rfl | ⟨g, w, hg⟩)
      · exact ⟨f0, false, .inl ⟨rfl, rfl⟩⟩
      · exact ⟨g, w, .inr hg⟩
  have hlive : ∀ g b w, IsEnd files g b w → b ∈ livePipes files :=
    fun g b w hg => mem_livePipes.mpr ⟨g, w, hg⟩
  refine ⟨⟨fun g => ?_, fun g hz => ?_, fun g => ?_, fun g g' b w hg hg' => ?_, fun g b w hg => ?_,
    fun b hb w hnone => ?_⟩, hpipes⟩
  · obtain ⟨w, rfl⟩ | hg := hcases g
    · rw [hend, hx]
      exact h.ref _
    · rw [hrest g hg, h.ref g]
  · obtain ⟨w, rfl⟩ | hg := hcases g
    · rw [hend, hx] at hz
      have hzero := (h.ref _).symm.trans hz
      have hpos := hcnt w
      omega
    · rw [hrest g hg] at hz ⊢
      exact h.closed g hz
  · obtain ⟨w, rfl⟩ | hg := hcases g
    · rw [hend, hx]
      exact fun _ => rfl
    · rw [hrest g hg]
      exact h.side g
  · obtain ⟨h1, rfl⟩ | hg := (hiff g b w).mp hg
    · obtain ⟨h2, -⟩ | hg' := (hiff g' b w).mp hg'
      · exact h1.trans h2.symm
      · exact absurd (hlive _ _ _ hg') hnew
    · obtain ⟨-, rfl⟩ | hg' := (hiff g' b w).mp hg'
      · exact absurd (hlive _ _ _ hg) hnew
      · exact h.ends g g' b w hg hg'
  · obtain ⟨-, rfl⟩ | hg := (hiff g b w).mp hg
    · exact hflag w
    · rw [num_congr_page (hsame b (hlive g b w hg)) (endOff_add_le w)]
      exact h.opened g b w hg
  · rw [hpipes] at hb
    obtain rfl | hb := hb
    · exact absurd ((hiff (endOf f0 f1 w) b w).mpr (.inl ⟨rfl, rfl⟩)) (hnone _)
    · rw [num_congr_page (hsame b hb) (endOff_add_le w)]
      exact h.shut b hb w fun g hg => hnone g ((hiff g b w).mpr (.inr hg))

/-- Memory with the header of a new pipe. -/
def pipePage (mem : ℕ → UInt8) (a : ℕ) : ℕ → UInt8 :=
  Bytes.put (Bytes.put (Bytes.put (Bytes.put mem (a + readopenOff) 4 1) (a + writeopenOff) 4 1)
    (a + nwriteOff) 4 0) (a + nreadOff) 4 0

/-- Both ends of a new pipe are open. -/
theorem num_pipePage (mem : ℕ → UInt8) (a : ℕ) (w : Bool) :
    num (pipePage mem a) (a + endOff w) 4 = 1 := by
  have hoff : endOff w = if w then 548 else 544 := by cases w <;> rfl
  have hnread : nreadOff = 536 := rfl
  have hnwrite : nwriteOff = 540 := rfl
  have hwrite : writeopenOff = 548 := rfl
  have hread : readopenOff = 544 := rfl
  unfold pipePage
  rw [num_put_disjoint _ (Or.inr (by split at hoff <;> omega)),
    num_put_disjoint _ (.inr (by split at hoff <;> omega))]
  cases w
  · rw [num_put_disjoint _ (.inl (by simp at hoff; omega))]
    exact num_put_same _ _ _ _
  · exact num_put_same _ _ _ _

/-- A page becomes a pipe. -/
theorem Moves.pipePage {vm : Vm} (ho : Owns img vm {a}) :
    Moves img vm (vm.setMem (pipePage vm.mem a)) {a} {a} := by
  refine Moves.write ho rfl fun x hx => ?_
  have hnread : nreadOff = 536 := rfl
  have hnwrite : nwriteOff = 540 := rfl
  have hwrite : writeopenOff = 548 := rfl
  have hread : readopenOff = 544 := rfl
  unfold InPage pgsize at hx
  unfold Sys.pipePage Bytes.put
  rw [blit_outside _ _ (by omega), blit_outside _ _ (by omega),
    blit_outside _ _ (by omega), blit_outside _ _ (by omega)]

/-- Memory changes only in what nobody owns. -/
theorem Inv.step_idle (h : Inv img all eager s T cnt) (hm : Moves img s.vm s'.vm ∅ ∅)
    (hprocs : s'.procs = s.procs) (hfiles : s'.files = s.files)
    (hinit : s'.initproc = s.initproc) : Inv img all eager s' T cnt ∧ FileStep s s' := by
  have hT : Moves img s.vm s'.vm T T :=
    (hm.union (h.shares.owns .kernel) fun _ _ => Set.notMem_empty _).of_eq (Set.empty_union _)
      (Set.empty_union _)
  obtain ⟨hinv, hspace⟩ := h.step_kernel hT (fun q => by rw [hprocs]; exact Proc.SameMem.refl _)
    hfiles
  exact ⟨hinv, hprocs, hinit, hspace⟩

/-- The allocator is sound. -/
theorem Inv.ownsNone (h : Inv img all eager s T cnt) : Owns img s.vm ∅ :=
  (h.shares.owns .kernel).mono (Set.empty_subset _)

theorem gain_of_ne {g : FileId} (h : g ≠ f) : gain cnt f g = cnt g := update_of_ne h _ _

theorem gain_self : gain cnt f f = cnt f + 1 := update_self _ _ _

theorem drop_gain_gain (h : f ≠ f') : drop (gain (gain cnt f) f') f = gain cnt f' := by
  funext g
  unfold drop gain
  by_cases hf : g = f
  · subst hf
    simp [h]
  · by_cases hf' : g = f'
    · subst hf'
      simp [hf]
    · simp [hf, hf']

/-- The entries that others refer to are as they were. -/
def FilesKept (cnt : FileId → ℕ) (s s' : State) : Prop := ∀ g, cnt g ≠ 0 → s'.files g = s.files g

theorem FilesKept.of_eq (h : s'.files = s.files) : FilesKept cnt s s' := fun g _ => by rw [h]

theorem FilesKept.trans (h : FilesKept cnt s s') (h' : FilesKept cnt s' s'') :
    FilesKept cnt s s'' := fun g hg => (h' g hg).trans (h g hg)

/-- A free file changes. -/
theorem FilesKept.of_update {x : File} (hs' : s'.files = update s.files f x)
    (hf : cnt f = 0) : FilesKept cnt s s' := by
  intro g hg
  rw [hs', update_of_ne]
  rintro rfl
  exact hg hf

/-- The pipes are those of the entries that are referred to. -/
theorem Inv.livePipes_eq (h : Inv img all eager s T cnt) (h' : Inv img all eager s' T cnt)
    (hkept : FilesKept cnt s s') : livePipes s'.files = livePipes s.files := by
  refine livePipes_congr fun f a w => ?_
  by_cases hf : cnt f = 0
  · rw [IsEnd, IsEnd, h.files.type_of_zero hf, h'.files.type_of_zero hf]
    exact ⟨fun hend => absurd hend.1 (by decide), fun hend => absurd hend.1 (by decide)⟩
  · rw [IsEnd, IsEnd, hkept f hf]

/-- Giving up two entries that nobody else refers to. -/
theorem closeBoth_runs {β : Type} {r : β} {f0 f1 : FileId}
    (h : Inv img all eager s T (gain (gain cnt f0) f1)) (hne : f0 ≠ f1) (hf0 : cnt f0 = 0)
    (hf1 : cnt f1 = 0) :
    Runs E (fileclose img f0 >>= fun _ => fileclose img f1 >>= fun _ => pure r) s
      fun r' s' => r' = r ∧ Inv img all eager s' T cnt ∧ FileStep s s' ∧ FilesKept cnt s s' := by
  refine (fileclose_runs h (by rw [gain_of_ne hne, gain_self]; omega)).bind ?_
  rintro _ s1 ⟨h1, hstep1, hfiles1⟩
  rw [drop_gain_gain hne] at h1
  refine (fileclose_runs h1 (by rw [gain_self]; omega)).bind ?_
  rintro _ s2 ⟨h2, hstep2, hfiles2⟩
  rw [drop_gain] at h2
  exact .pure ⟨rfl, h2, hstep1.trans hstep2,
    (FilesKept.of_update hfiles1 hf0).trans (FilesKept.of_update hfiles2 hf1)⟩

/-- `pipealloc` makes a pipe with two new files, or leaves everything as it was. -/
theorem pipealloc_runs (h : Inv img all eager s T cnt) :
    Runs E (pipealloc img) s fun r s' =>
      FileStep s s' ∧ FilesKept cnt s s' ∧
      ((r = none ∧ Inv img all eager s' T cnt) ∨
        ∃ f0 f1, r = some (f0, f1) ∧ f0 ≠ f1 ∧ cnt f0 = 0 ∧ cnt f1 = 0 ∧
          Inv img all eager s' T (gain (gain cnt f0) f1)) := by
  unfold pipealloc
  refine (filealloc_runs h).bind ?_
  rintro _ s1 (⟨rfl, rfl⟩ | ⟨f0, rfl, hf0, hvm1, hfiles1, h1, hstep1⟩)
  · exact .pure ⟨FileStep.refl _, fun _ _ => rfl, .inl ⟨rfl, h⟩⟩
  have hkept1 : FilesKept cnt s s1 := FilesKept.of_update hfiles1 hf0
  refine (filealloc_runs h1).bind ?_
  rintro _ s2 (⟨rfl, rfl⟩ | ⟨f1, rfl, hf1, hvm2, hfiles2, h2, hstep2⟩)
  · refine (fileclose_runs h1 (by rw [gain_self]; omega)).bind ?_
    rintro _ s3 ⟨h3, hstep3, hfiles3⟩
    rw [drop_gain] at h3
    exact .pure ⟨hstep1.trans hstep3, hkept1.trans (FilesKept.of_update hfiles3 hf0),
      .inl ⟨rfl, h3⟩⟩
  have hne : f0 ≠ f1 := by
    rintro rfl
    rw [gain_self] at hf1
    omega
  rw [gain_of_ne (Ne.symm hne)] at hf1
  have hkept2 : FilesKept cnt s s2 := hkept1.trans (FilesKept.of_update hfiles2 hf1)
  refine lift_bind (kalloc_runs h2.ownsNone) ?_
  rintro pi vm3 (⟨rfl, hm, -⟩ | ⟨hpage, hfree, hm⟩)
  · rw [if_pos rfl]
    obtain ⟨h3, hstep3⟩ : Inv img all eager { s2 with vm := vm3 } T _ ∧ FileStep s2 _ :=
      h2.step_idle hm rfl rfl rfl
    refine (closeBoth_runs h3 hne hf0 hf1).mono ?_
    rintro r s4 ⟨hr, h4, hstep4, hkept4⟩
    exact ⟨((hstep1.trans hstep2).trans hstep3).trans hstep4, hkept2.trans hkept4, .inl ⟨hr, h4⟩⟩
  · rw [if_neg hpage.pos]
    let x : Bool → File := fun w =>
      { s2.files (endOf f0 f1 w) with type := .pipe, readable := !w, writable := w, pipe := pi }
    have heq : (update s2.files f0 (x false)) f1 = s2.files f1 :=
      update_of_ne (Ne.symm hne) _ _
    refine .of_eq (a := some (f0, f1))
      (t := { s2 with
        vm := vm3.setMem (pipePage vm3.mem pi)
        files := update (update s2.files f0 (x false)) f1
          { (update s2.files f0 (x false)) f1 with
            type := .pipe, readable := false, writable := true, pipe := pi } }) rfl ?_
    rw [heq]
    have hmove : Moves img s2.vm (vm3.setMem (pipePage vm3.mem pi)) ∅ {pi} :=
      hm.trans (Moves.pipePage hm.owns)
    have howns : Owns img s2.vm (livePipes s2.files) := h2.shares.owns .pipes
    have htype : ∀ w, (s2.files (endOf f0 f1 w)).type ≠ .pipe := by
      intro w
      have htype1 : (s1.files (endOf f0 f1 w)).type = .none := by
        cases w
        · show (s1.files f0).type = .none
          rw [hfiles1, update_self]
          exact h.files.type_of_zero hf0
        · show (s1.files f1).type = .none
          rw [hfiles1, update_of_ne (Ne.symm hne)]
          exact h.files.type_of_zero hf1
      rw [hfiles2]
      by_cases hw : endOf f0 f1 w = f1
      · rw [hw] at htype1 ⊢
        rw [update_self, htype1]
        decide
      · rw [update_of_ne hw, htype1]
        decide
    have hcnt : ∀ w, gain (gain cnt f0) f1 (endOf f0 f1 w) ≠ 0 := by
      intro w
      cases w
      · show gain (gain cnt f0) f1 f0 ≠ 0
        rw [gain_of_ne hne, gain_self]
        omega
      · show gain (gain cnt f0) f1 f1 ≠ 0
        rw [gain_self]
        omega
    obtain ⟨hinv, hpipes⟩ := h2.files.add_pipe (x := x) (a := pi) hne htype hcnt (fun _ => rfl)
      (fun hlive => howns.inUse pi hlive hfree)
      (fun b hb => hmove.same howns (fun _ _ => Set.notMem_empty _) hb) (num_pipePage vm3.mem pi)
    have hmove' := (hmove.union howns fun _ _ => Set.notMem_empty _).of_eq (Set.empty_union _)
      hpipes.symm
    obtain ⟨h3, hspace⟩ :
        Inv img all eager { s2 with
          vm := vm3.setMem (pipePage vm3.mem pi)
          files := update (update s2.files f0 (x false)) f1 (x true) } T
          (gain (gain cnt f0) f1) ∧ ∀ q, SameSpace s2 _ q := h2.step_files hmove' rfl hinv
    refine ⟨(hstep1.trans hstep2).trans ⟨rfl, rfl, hspace⟩, fun g hg => ?_,
      .inr ⟨f0, f1, rfl, hne, hf0, hf1, h3⟩⟩
    have hg0 : g ≠ f0 := by
      rintro rfl
      exact hg hf0
    have hg1 : g ≠ f1 := by
      rintro rfl
      exact hg hf1
    exact ((update_of_ne hg1 _ _).trans (update_of_ne hg0 _ _)).trans
      (hkept2 g hg)

end RiscvKernel.Sys
