import Mathlib.Logic.Relation
import RiscvKernel.LogRuns

/-!
# Crash atomicity of the redo log

A crash stops the machine after some prefix of the block writes issued so far and
empties the cache. The disk is then in one of three phases: the header is still
clear and the home blocks are old, or the header lists the transaction and the log
blocks hold the new contents, or the header is clear again and the home blocks are
new. Every prefix of the writes of `commit` and of `recover_from_log` leads from a
phase to a phase, so any number of crashes and restarts does.
-/

namespace RiscvKernel

open Threads Function

section Boot

variable {P : Type}

/-- The machine after a restart on disk `d`: `binit` has linked the zeroed buffers and
`initlog` has set the position of the log. -/
def boot (start dev : ℕ) (d : ℕ → Block) : Store P where
  bufs := fun _ => ⟨false, 0, 0, none, 0, Block.zero⟩
  lru := (List.finRange nbuf).reverse
  disk := d
  writes := []
  log := ⟨start, dev, 0, false, []⟩
  ch := { users := fun _ => [], dirty := fun _ => false, latest := d }
  oh :=
    { ops := []
      opBlocks := fun _ => []
      ended := []
      committer := none
      installed := 0
      written := []
      commits := []
      logWrites := [] }

/-- After a restart the cache is empty and represents the disk. -/
theorem boot_alone {dev : ℕ} (hdev : dev ≠ 0) (p : P) (start : ℕ) (d : ℕ → Block) :
    Alone False p ⟨start, dev, 0, false, []⟩ [] d ∅ (boot start dev d) := by
  have hmiss : ∀ i b, ¬ ((boot start dev d : Store P).bufs i).caches dev b := by
    intro i b hc
    exact hdev (caches_iff.mp hc).1.symm
  refine ⟨rfl, ?_, ?_, ?_, ?_, ?_, ?_, ?_, ?_⟩
  · intro i
    exact List.mem_reverse.mpr (List.mem_finRange i)
  · intro i j b hc
    exact absurd hc (hmiss i b)
  · intro i hi
    exact absurd hi List.not_mem_nil
  · intro i _
    exact .inl rfl
  · intro i
    exact ⟨0, rfl, le_rfl, fun b hb => absurd hb (Set.notMem_empty b), .inr (.inl rfl)⟩
  · intro i b hc
    exact absurd hc (hmiss i b)
  · intro b _
    rfl
  · intro b hb
    exact absurd hb (Set.notMem_empty b)

variable [DecidableEq P]

/-- One recovery that is itself cut short by a crash, after some of its writes. -/
def RecoveryCrash (p : P) (start dev : ℕ) (d d' : ℕ → Block) : Prop :=
  ∃ k, d' = applyWrites d ((recoverFromLog.exec p (boot start dev d)).state.writes.take k)

end Boot

section Phases

/-- The three phases of the disk around a transaction `lh` with old contents `old` and new
contents `new`. Blocks outside the log and the transaction never change. -/
structure Phase (start : ℕ) (lh : List ℕ) (old new d : ℕ → Block) : Prop where
  /-- Everything else is as before. -/
  frame : ∀ b, ¬ InLog start b → b ∉ lh → d b = old b
  /-- Not committed, committed, or installed. -/
  phase : ((d start).decodeHead = [] ∧ ∀ b ∈ lh, d b = old b) ∨
    ((d start).decodeHead = lh ∧ (∀ k (hk : k < lh.length), d (start + (0 + k) + 1) = new lh[k]) ∧
      ∀ b ∈ lh, d b = old b ∨ d b = new b) ∨
    ((d start).decodeHead = [] ∧ ∀ b ∈ lh, d b = new b)

/-- The transaction has passed its commit point. -/
def PastCommit (start : ℕ) (lh : List ℕ) (new d : ℕ → Block) : Prop :=
  ((d start).decodeHead = lh ∧ ∀ k (hk : k < lh.length), d (start + (0 + k) + 1) = new lh[k]) ∨
    ((d start).decodeHead = [] ∧ ∀ b ∈ lh, d b = new b)

/-- Writing each listed block its contents under `V`. -/
theorem applyWrites_map (V d : ℕ → Block) (bs : List ℕ) (x : ℕ) :
    applyWrites d (bs.map fun b => (b, V b)) x = if x ∈ bs then V x else d x := by
  induction bs generalizing d with
  | nil => rfl
  | cons b bs ih =>
    rw [List.map_cons, applyWrites_cons, ih]
    by_cases hx : x = b
    · subst hx
      simp
    · simp [hx]

variable {start : ℕ} {lh : List ℕ} {old new d : ℕ → Block}

/-- Clearing the header empties it. -/
theorem decodeHead_cleared (b : Block) : (b.encodeHead []).decodeHead = [] :=
  decodeHead_encodeHead b (by simp) (by simp)

variable (new) in
/-- A run that only reaches the home writes of a committed transaction. -/
theorem committed_home_writes (hlog : ∀ b ∈ lh, ¬ InLog start b) (hlen : lh.length ≤ logblocks)
    (hframe : ∀ b, ¬ InLog start b → b ∉ lh → d b = old b)
    (hhead : (d start).decodeHead = lh)
    (hblocks : ∀ k (hk : k < lh.length), d (start + (0 + k) + 1) = new lh[k])
    (hhome : ∀ b ∈ lh, d b = old b ∨ d b = new b) (j : ℕ) :
    Phase start lh old new (applyWrites d ((lh.take j).map fun b => (b, new b))) ∧
      PastCommit start lh new (applyWrites d ((lh.take j).map fun b => (b, new b))) := by
  have hkeep : ∀ b, InLog start b →
      applyWrites d ((lh.take j).map fun b => (b, new b)) b = d b := by
    intro b hb
    rw [applyWrites_map, if_neg]
    exact fun hmem => hlog b (List.mem_of_mem_take hmem) hb
  have hstart := hkeep start ⟨le_rfl, Nat.le_add_right _ _⟩
  have hdata : ∀ k (hk : k < lh.length),
      applyWrites d ((lh.take j).map fun b => (b, new b)) (start + (0 + k) + 1) = new lh[k] := by
    intro k hk
    rw [hkeep _ ⟨by omega, by omega⟩]
    exact hblocks k hk
  have hhomes : ∀ b ∈ lh, applyWrites d ((lh.take j).map fun b => (b, new b)) b = old b ∨
      applyWrites d ((lh.take j).map fun b => (b, new b)) b = new b := by
    intro b hb
    rw [applyWrites_map]
    split
    · exact .inr rfl
    · exact hhome b hb
  refine ⟨⟨?_, .inr (.inl ⟨?_, hdata, hhomes⟩)⟩, .inl ⟨?_, hdata⟩⟩
  · intro b hb hmem
    rw [applyWrites_map, if_neg fun h => hmem (List.mem_of_mem_take h)]
    exact hframe b hb hmem
  · rw [hstart]; exact hhead
  · rw [hstart]; exact hhead

variable (new) in
/-- Installing all home blocks and clearing the header ends the transaction. -/
theorem installed_of_committed (hlog : ∀ b ∈ lh, ¬ InLog start b)
    (hframe : ∀ b, ¬ InLog start b → b ∉ lh → d b = old b) (h : Block) :
    Phase start lh old new
      (applyWrites d (lh.map (fun b => (b, new b)) ++ [(start, h.encodeHead [])])) ∧
    PastCommit start lh new
      (applyWrites d (lh.map (fun b => (b, new b)) ++ [(start, h.encodeHead [])])) := by
  rw [applyWrites_append]
  simp only [applyWrites_cons, applyWrites_nil]
  have hhead : (update (applyWrites d (lh.map fun b => (b, new b))) start
      (h.encodeHead []) start).decodeHead = [] := by
    rw [update_self]
    exact decodeHead_cleared h
  have hother : ∀ b, ¬ InLog start b → update (applyWrites d (lh.map fun b => (b, new b)))
      start (h.encodeHead []) b = if b ∈ lh then new b else d b := by
    intro b hb
    rw [update_of_ne, applyWrites_map]
    rintro rfl
    exact hb ⟨le_rfl, Nat.le_add_right _ _⟩
  have hhome : ∀ b ∈ lh, update (applyWrites d (lh.map fun b => (b, new b))) start
      (h.encodeHead []) b = new b := by
    intro b hb
    rw [hother b (hlog b hb), if_pos hb]
  refine ⟨⟨?_, .inr (.inr ⟨hhead, hhome⟩)⟩, .inr ⟨hhead, hhome⟩⟩
  intro b hb hmem
  rw [hother b hb, if_neg hmem]
  exact hframe b hb hmem

/-- Any prefix of the writes of `commit` leaves the disk in a phase; once the header
has been written the transaction is past its commit point. -/
theorem phase_commit_take (old : ℕ → Block) {lg : Log} {V : ℕ → Block}
    (hlog : ∀ b ∈ lg.lh, ¬ InLog lg.start b)
    (hlen : lg.lh.length ≤ logblocks) (hlt : ∀ b ∈ lg.lh, b < 2 ^ 32)
    (hhead : (old lg.start).decodeHead = []) (k : ℕ) :
    Phase lg.start lg.lh old V (applyWrites old ((commitWrites lg V).take k)) ∧
      ((∃ h, (lg.start, h) ∈ (commitWrites lg V).take k) →
        PastCommit lg.start lg.lh V (applyWrites old ((commitWrites lg V).take k))) := by
  have hkeys : ∀ {b : ℕ} {ws : List (ℕ × Block)}, ws <+: logEntries lg.start V 0 lg.lh →
      b ∈ ws.map Prod.fst → lg.start + 1 ≤ b ∧ b ≤ lg.start + logblocks := by
    intro b ws hws hb
    have := mem_logEntries_fst ((hws.map Prod.fst).subset hb)
    omega
  have hold : ∀ {ws : List (ℕ × Block)}, ws <+: logEntries lg.start V 0 lg.lh →
      ∀ b, ¬ InLog lg.start b ∨ b = lg.start → applyWrites old ws b = old b := by
    intro ws hws b hb
    apply applyWrites_of_notMem
    intro hmem
    have := hkeys hws hmem
    rcases hb with hb | rfl
    · exact hb ⟨by omega, by omega⟩
    · omega
  unfold commitWrites
  rw [List.take_append]
  rcases Nat.lt_or_ge (logEntries lg.start V 0 lg.lh).length k with hk | hk
  · obtain ⟨j, hj⟩ : ∃ j, k - (logEntries lg.start V 0 lg.lh).length = j + 1 :=
      ⟨k - (logEntries lg.start V 0 lg.lh).length - 1, by omega⟩
    rw [List.take_of_length_le hk.le, hj, List.take_succ_cons, applyWrites_append,
      applyWrites_cons]
    -- The header has been written: the disk before the home writes.
    set d := update (applyWrites old (logEntries lg.start V 0 lg.lh)) lg.start
      ((V lg.start).encodeHead lg.lh) with hd
    have hdhead : (d lg.start).decodeHead = lg.lh := by
      rw [hd, update_self]
      exact decodeHead_encodeHead _ hlen hlt
    have hdhome : ∀ b, ¬ InLog lg.start b → d b = old b := by
      intro b hb
      rw [hd, update_of_ne, hold (List.prefix_refl _) b (Or.inl hb)]
      rintro rfl
      exact hb ⟨le_rfl, Nat.le_add_right _ _⟩
    have hdlog : ∀ i (hi : i < lg.lh.length), d (lg.start + (0 + i) + 1) = V lg.lh[i] := by
      intro i hi
      rw [hd, update_of_ne (by omega), applyWrites_logEntries lg.start V old lg.lh 0 hi]
    have hframe : ∀ b, ¬ InLog lg.start b → b ∉ lg.lh → d b = old b := fun b hb _ => hdhome b hb
    rw [List.take_append]
    rcases Nat.lt_or_ge (lg.lh.map fun b => (b, V b)).length j with hj' | hj'
    · rw [List.take_of_length_le hj'.le,
        List.take_of_length_le (by rw [List.length_singleton]; omega)]
      have h := installed_of_committed V hlog hframe ((V lg.start).encodeHead lg.lh)
      exact ⟨h.1, fun _ => h.2⟩
    · rw [Nat.sub_eq_zero_of_le hj', List.take_zero, List.append_nil, ← List.map_take]
      have h := committed_home_writes V hlog hlen hframe hdhead hdlog
        (fun b hb => .inl (hdhome b (hlog b hb))) j
      exact ⟨h.1, fun _ => h.2⟩
  · rw [Nat.sub_eq_zero_of_le hk, List.take_zero, List.append_nil]
    have hpre := List.take_prefix k (logEntries lg.start V 0 lg.lh)
    refine ⟨⟨fun b hb _ => hold hpre b (.inl hb), .inl ⟨?_, ?_⟩⟩, ?_⟩
    · rw [hold hpre lg.start (.inr rfl)]
      exact hhead
    · intro b hb
      exact hold hpre b (.inl (hlog b hb))
    · rintro ⟨h, hmem⟩
      have := hkeys hpre (List.mem_map_of_mem (f := Prod.fst) hmem)
      omega

/-- Any prefix of the writes of a recovery started in a phase leads to a phase, and never
back over the commit point. -/
theorem phase_recover_take (hlog : ∀ b ∈ lh, ¬ InLog start b) (hlen : lh.length ≤ logblocks)
    (h : Phase start lh old new d) (k : ℕ) :
    Phase start lh old new (applyWrites d ((recoverWrites start d).take k)) ∧
      (PastCommit start lh new d →
        PastCommit start lh new (applyWrites d ((recoverWrites start d).take k))) := by
  -- With a clear header the only write of a recovery is the clear header.
  have hclear : (d start).decodeHead = [] →
      ((applyWrites d ((recoverWrites start d).take k)) start).decodeHead = [] ∧
      ∀ b, b ≠ start → applyWrites d ((recoverWrites start d).take k) b = d b := by
    intro hnil
    have hw : recoverWrites start d = [(start, (d start).encodeHead [])] := by
      simp [recoverWrites, hnil, homeEntries]
    rw [hw]
    cases k with
    | zero => exact ⟨hnil, fun b _ => rfl⟩
    | succ k =>
      simp only [List.take_succ_cons, List.take_nil, applyWrites_cons, applyWrites_nil]
      refine ⟨?_, fun b hb => update_of_ne hb _ _⟩
      rw [update_self]
      exact decodeHead_cleared _
  have hne : ∀ b, ¬ InLog start b → b ≠ start := by
    rintro b hb rfl
    exact hb ⟨le_rfl, Nat.le_add_right _ _⟩
  rcases h.phase with ⟨hnil, hhome⟩ | ⟨hhead, hblocks, hhome⟩ | ⟨hnil, hhome⟩
  · obtain ⟨hnil', hkeep⟩ := hclear hnil
    refine ⟨⟨fun b hb hmem => ?_, .inl ⟨hnil', fun b hb => ?_⟩⟩, ?_⟩
    · rw [hkeep b (hne b hb)]
      exact h.frame b hb hmem
    · rw [hkeep b (hne b (hlog b hb))]
      exact hhome b hb
    · rintro (⟨hhead, hblocks⟩ | ⟨-, hnew⟩)
      · -- Only the empty transaction has a clear header that lists it.
        have hempty : lh = [] := hhead.symm.trans hnil
        subst hempty
        exact .inr ⟨hnil', by simp⟩
      · refine .inr ⟨hnil', fun b hb => ?_⟩
        rw [hkeep b (hne b (hlog b hb))]
        exact hnew b hb
  · have hw : recoverWrites start d = lh.map (fun b => (b, new b)) ++
        [(start, (d start).encodeHead [])] := by
      rw [recoverWrites, hhead, homeEntries_eq_map 0 hblocks]
    rw [hw, List.take_append]
    rcases Nat.lt_or_ge (lh.map fun b => (b, new b)).length k with hk | hk
    · rw [List.take_of_length_le hk.le,
        List.take_of_length_le (by rw [List.length_singleton]; omega)]
      have hdone := installed_of_committed new hlog h.frame (d start)
      exact ⟨hdone.1, fun _ => hdone.2⟩
    · rw [Nat.sub_eq_zero_of_le hk, List.take_zero, List.append_nil, ← List.map_take]
      have hmid := committed_home_writes new hlog hlen h.frame hhead hblocks hhome k
      exact ⟨hmid.1, fun _ => hmid.2⟩
  · obtain ⟨hnil', hkeep⟩ := hclear hnil
    have hhome' : ∀ b ∈ lh, applyWrites d ((recoverWrites start d).take k) b = new b := by
      intro b hb
      rw [hkeep b (hne b (hlog b hb))]
      exact hhome b hb
    refine ⟨⟨fun b hb hmem => ?_, .inr (.inr ⟨hnil', hhome'⟩)⟩, fun _ =>
      .inr ⟨hnil', hhome'⟩⟩
    rw [hkeep b (hne b hb)]
    exact h.frame b hb hmem

end Phases

section Atomicity

variable {P : Type} [DecidableEq P] {p : P} {start dev : ℕ} {lh : List ℕ} {old new d : ℕ → Block}

/-- A recovery started in a phase completes, and its writes are `recoverWrites`. -/
theorem recover_completes (hdev : dev ≠ 0) (hlog : ∀ b ∈ lh, ¬ InLog start b)
    (hlen : lh.length ≤ logblocks) (h : Phase start lh old new d) :
    ∃ s', (recoverFromLog : BioProg P Unit).exec p (boot start dev d) = .ok () s' ∧
      s'.writes = recoverWrites start d ∧ s'.disk = applyWrites d (recoverWrites start d) := by
  have hhead : (d start).decodeHead = [] ∨ (d start).decodeHead = lh := by
    rcases h.phase with ⟨hnil, -⟩ | ⟨hhead, -⟩ | ⟨hnil, -⟩
    · exact .inl hnil
    · exact .inr hhead
    · exact .inl hnil
  have hbs : ∀ b ∈ (d start).decodeHead, ¬ InLog start b := by
    intro b hb
    rcases hhead with hnil | hhead
    · simp [hnil] at hb
    · exact hlog b (hhead ▸ hb)
  have hlen' : (d start).decodeHead.length ≤ logblocks := by
    rcases hhead with hnil | hhead
    · simp [hnil]
    · rw [hhead]; exact hlen
  have hissues := recover_issues (boot_alone hdev p start d) hbs hlen'
  obtain ⟨_, s', hexec, hwrites, hdisk⟩ := hissues.exists_ok
  exact ⟨s', hexec, by simpa [boot] using hwrites, hdisk⟩

/-- Recoveries that crash lead from phase to phase. -/
theorem phase_recoveryCrash (hdev : dev ≠ 0) (hlog : ∀ b ∈ lh, ¬ InLog start b)
    (hlen : lh.length ≤ logblocks) {d' : ℕ → Block} (h : Phase start lh old new d)
    (hcrash : Relation.ReflTransGen (RecoveryCrash p start dev) d d') :
    Phase start lh old new d' ∧ (PastCommit start lh new d → PastCommit start lh new d') := by
  induction hcrash with
  | refl => exact ⟨h, id⟩
  | tail _ hstep ih =>
    obtain ⟨k, rfl⟩ := hstep
    obtain ⟨s', hexec, hwrites, -⟩ := recover_completes (p := p) hdev hlog hlen ih.1
    rw [hexec, Outcome.state_ok, hwrites]
    have hnext := phase_recover_take hlog hlen ih.1 k
    exact ⟨hnext.1, fun hpast => hnext.2 (ih.2 hpast)⟩

/-- The state in which `end_op` calls `commit()`: the on-disk header is clear, the listed
home blocks lie outside the log and are pinned in the cache with contents `new`, and the
rest of the cache agrees with the disk. -/
structure CommitStart (p : P) (s : Store P) (new : ℕ → Block) : Prop where
  /-- The log lives on a real device. -/
  dev_ne : s.log.dev ≠ 0
  /-- The on-disk header is clear. -/
  head : (s.disk s.log.start).headCount = 0
  /-- The listed blocks are distinct. -/
  nodup : s.log.lh.Nodup
  /-- The transaction fits the log. -/
  length_le : s.log.lh.length ≤ logblocks
  /-- The home blocks lie outside the log. -/
  outside : ∀ b ∈ s.log.lh, ¬ InLog s.log.start b
  /-- Block numbers are 32-bit. -/
  lt : ∀ b ∈ s.log.lh, b < 2 ^ 32
  /-- The cache holds the new contents of the listed blocks, the disk all others. -/
  cache : Alone True p s.log [] (fun b => if b ∈ s.log.lh then new b else s.disk b)
    {b | b ∈ s.log.lh} s

/-- The block writes issued by `commit()`, complete or not. -/
def commitIssued (p : P) (s : Store P) : List (ℕ × Block) :=
  ((commit : BioProg P Unit).exec p s).state.writes.drop s.writes.length

/-- The writes that `commit()` gets to issue are a prefix of `commitWrites`. -/
theorem commitIssued_take {s : Store P} (h : CommitStart p s new) :
    commitIssued p s <+:
      commitWrites s.log (fun b => if b ∈ s.log.lh then new b else s.disk b) := by
  have hissues := commit_issues h.cache (fun _ hb => hb) h.outside h.nodup fun _ =>
    ⟨h.length_le, .inl trivial, fun k hk hmem =>
      h.outside _ hmem ⟨by omega, by have := h.length_le; omega⟩⟩
  have hsub : (if s.log.lh = [] then [] else
      commitWrites s.log (fun b => if b ∈ s.log.lh then new b else s.disk b)) <+:
      commitWrites s.log (fun b => if b ∈ s.log.lh then new b else s.disk b) := by
    split
    · exact List.nil_prefix
    · exact List.prefix_refl _
  unfold commitIssued
  unfold Issues at hissues
  cases hexec : (commit : BioProg P Unit).exec p s with
  | ok a s' =>
    rw [hexec] at hissues
    rw [Outcome.state_ok, hissues.1, List.drop_left]
    exact hsub
  | panic msg s' =>
    rw [hexec] at hissues
    obtain ⟨-, W, hW, hw⟩ := hissues
    rw [Outcome.state_panic, hw, List.drop_left]
    exact hW.trans hsub
  | stuck s' =>
    rw [hexec] at hissues
    exact hissues.elim

/-- **Crash atomicity.** A crash after any prefix of the writes of `commit()`, followed by any
number of recoveries that crash themselves, is followed by a recovery that completes. Then the
count in the header is 0, no block outside the log and the transaction has changed, and the home
blocks are all old or all new; they are new once the first header write had reached the disk. -/
theorem commit_crash_atomic {s : Store P} (h : CommitStart p s new) (k : ℕ) {d : ℕ → Block}
    (hcrash : Relation.ReflTransGen (RecoveryCrash p s.log.start s.log.dev)
      (applyWrites s.disk ((commitIssued p s).take k)) d) :
    ∃ s', (recoverFromLog : BioProg P Unit).exec p (boot s.log.start s.log.dev d) = .ok () s' ∧
      (s'.disk s.log.start).num 0 4 = 0 ∧
      (∀ b, ¬ InLog s.log.start b → b ∉ s.log.lh → s'.disk b = s.disk b) ∧
      ((∀ b ∈ s.log.lh, s'.disk b = s.disk b) ∨ ∀ b ∈ s.log.lh, s'.disk b = new b) ∧
      ((∃ hd, (s.log.start, hd) ∈ (commitIssued p s).take k) →
        ∀ b ∈ s.log.lh, s'.disk b = new b) := by
  set V : ℕ → Block := fun b => if b ∈ s.log.lh then new b else s.disk b with hV
  have hnew : ∀ b ∈ s.log.lh, V b = new b := fun b hb => if_pos hb
  -- The crash point as a prefix of the full list of writes.
  obtain ⟨j, hj⟩ : ∃ j, (commitIssued p s).take k = (commitWrites s.log V).take j := by
    have hpre := (List.take_prefix k _).trans (commitIssued_take h)
    exact ⟨_, List.prefix_iff_eq_take.mp hpre⟩
  rw [hj] at hcrash ⊢
  obtain ⟨hphase, hpast⟩ := phase_commit_take s.disk (V := V) h.outside h.length_le h.lt
    (decodeHead_eq_nil h.head) j
  obtain ⟨hphase', hpast'⟩ := phase_recoveryCrash h.dev_ne h.outside h.length_le hphase hcrash
  obtain ⟨s', hexec, hwrites, hdisk⟩ := recover_completes (p := p) h.dev_ne h.outside h.length_le
    hphase'
  have hend := phase_recover_take h.outside h.length_le hphase' (recoverWrites s.log.start d).length
  rw [List.take_length, ← hdisk] at hend
  have hfinal : s'.disk s.log.start = (d s.log.start).encodeHead [] := by
    rw [hdisk, recoverWrites, applyWrites_append, applyWrites_cons, applyWrites_nil,
      update_self]
  have hclear : (s'.disk s.log.start).decodeHead = [] := by
    rw [hfinal]
    exact decodeHead_cleared _
  have hdone : PastCommit s.log.start s.log.lh V s'.disk → ∀ b ∈ s.log.lh, s'.disk b = new b := by
    rintro (⟨hhead, -⟩ | ⟨-, hhome⟩) b hb
    · rw [hhead.symm.trans hclear] at hb
      cases hb
    · rw [hhome b hb, hnew b hb]
  refine ⟨s', hexec, ?_, hend.1.frame, ?_, ?_⟩
  · rw [hfinal]
    exact Block.num_put_same _ 0 (by decide)
  · rcases hend.1.phase with ⟨-, hold⟩ | ⟨hhead, hblocks, -⟩ | ⟨hnil, hhome⟩
    · exact .inl hold
    · exact .inr (hdone (.inl ⟨hhead, hblocks⟩))
    · exact .inr (hdone (.inr ⟨hnil, hhome⟩))
  · intro hhd
    exact hdone (hend.2 (hpast' (hpast hhd)))

end Atomicity

section Witness

/-- A machine that has logged blocks 40, 41 and 42: their buffers are pinned and hold sevens. -/
def loggedThree : Store Unit :=
  { boot 2 rootdev (fun _ => Block.zero) with
    bufs := fun i => if i.val < 3 then ⟨true, rootdev, 40 + i, none, 1, fun _ => 7⟩
      else ⟨false, 0, 0, none, 0, Block.zero⟩
    log := ⟨2, rootdev, 0, true, [42, 41, 40]⟩ }

/-- The pinned buffers are the only ones that cache a block of the log's device. -/
theorem loggedThree_caches {i : BufId} {b : ℕ} (h : (loggedThree.bufs i).caches rootdev b) :
    i.val < 3 ∧ b = 40 + i := by
  obtain ⟨hdev, hblock⟩ := caches_iff.mp h
  by_cases hi : i.val < 3
  · simp only [loggedThree, if_pos hi] at hblock
    exact ⟨hi, hblock.symm⟩
  · simp [loggedThree, hi, rootdev] at hdev

/-- The blocks that it has logged. -/
theorem loggedThree_lh {b : ℕ} : b ∈ loggedThree.log.lh ↔ 40 ≤ b ∧ b < 43 := by
  simp only [loggedThree, List.mem_cons, List.not_mem_nil, or_false]
  omega

/-- The machine is about to commit three blocks. -/
theorem loggedThree_commitStart : CommitStart () loggedThree (fun _ _ => 7) := by
  refine ⟨by decide, ?_, by decide, by decide, ?_, by decide, ?_⟩
  · simp [loggedThree, boot, Block.headCount]
  · intro b hb hin
    have := hin.2
    have := loggedThree_lh.mp hb
    simp only [loggedThree, logblocks, maxopblocks] at *
    omega
  · refine ⟨rfl, ?_, ?_, ?_, ?_, ?_, ?_, ?_, ?_⟩
    · exact fun i => List.mem_reverse.mpr (List.mem_finRange i)
    · intro i j b hi hj
      have hi := (loggedThree_caches hi).2
      have hj := (loggedThree_caches hj).2
      exact Fin.ext (by omega)
    · intro i hi
      exact absurd hi List.not_mem_nil
    · intro i _
      by_cases hi : i.val < 3 <;> exact .inl (by simp [loggedThree, hi])
    · intro i
      refine ⟨if i.val < 3 then 1 else 0, ?_, ?_, ?_, .inl trivial⟩
      · by_cases hi : i.val < 3 <;> simp [loggedThree, hi]
      · split <;> decide
      · intro b _ hc
        rw [if_pos (loggedThree_caches hc).1]
    · intro i b hc _
      obtain ⟨hi, rfl⟩ := loggedThree_caches hc
      have hb : 40 + i.val ∈ loggedThree.log.lh := loggedThree_lh.mpr (by omega)
      simp only [if_pos hb]
      simp [loggedThree, hi]
    · intro b hb
      exact (if_neg hb).symm
    · intro b hb
      have hb := loggedThree_lh.mp hb
      refine ⟨⟨b - 40, by simp only [nbuf, maxopblocks]; omega⟩, ?_⟩
      have hlt : b - 40 < 3 := by omega
      have hblock : 40 + (b - 40) = b := by omega
      simp [loggedThree, Buf.caches, hlt, hblock]

/-- That commit crashes after the first home block, and the recovery after its second. Once
recovery completes, the three blocks are all old or all new. -/
theorem loggedThree_crash_atomic :
    ∃ s', (recoverFromLog : BioProg Unit Unit).exec () (boot 2 rootdev
      (applyWrites (applyWrites loggedThree.disk ((commitIssued () loggedThree).take 5))
        ((recoverFromLog.exec () (boot 2 rootdev (applyWrites loggedThree.disk
          ((commitIssued () loggedThree).take 5)))).state.writes.take 2))) = .ok () s' ∧
      ((∀ b ∈ [42, 41, 40], s'.disk b = Block.zero) ∨
        ∀ b ∈ [42, 41, 40], s'.disk b = fun _ => 7) := by
  obtain ⟨s', hexec, -, -, hhome, -⟩ :=
    commit_crash_atomic loggedThree_commitStart 5 (Relation.ReflTransGen.single ⟨2, rfl⟩)
  exact ⟨s', hexec, hhome⟩

end Witness

end RiscvKernel
