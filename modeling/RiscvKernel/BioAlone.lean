import Mathlib.Data.Fintype.Card
import RiscvKernel.Bio

/-!
# The buffer cache used by one process

When a single process runs, the cache and the disk together represent one map `V`
from block numbers to contents: `bread` delivers the contents of `V`, and a block may
be newer in the cache than on the disk only while it is pinned. The specifications
here also list the disk writes that a program issues, in order.
-/

namespace RiscvKernel

open Threads Function

variable {P : Type} {α β : Type}

/-- The disk after a list of block writes. -/
def applyWrites (d : ℕ → Block) (ws : List (ℕ × Block)) : ℕ → Block :=
  ws.foldl (fun d w => update d w.1 w.2) d

@[simp] theorem applyWrites_nil (d : ℕ → Block) : applyWrites d [] = d := rfl

@[simp] theorem applyWrites_cons (d : ℕ → Block) (w : ℕ × Block) (ws : List (ℕ × Block)) :
    applyWrites d (w :: ws) = applyWrites (update d w.1 w.2) ws := rfl

/-- Writes take effect in order. -/
theorem applyWrites_append (d : ℕ → Block) (ws vs : List (ℕ × Block)) :
    applyWrites d (ws ++ vs) = applyWrites (applyWrites d ws) vs :=
  List.foldl_append

/-- A block that is not written keeps its contents. -/
theorem applyWrites_of_notMem {d : ℕ → Block} {ws : List (ℕ × Block)} {b : ℕ}
    (h : b ∉ ws.map Prod.fst) : applyWrites d ws b = d b := by
  induction ws generalizing d with
  | nil => rfl
  | cons w ws ih =>
    simp only [List.map_cons, List.mem_cons, not_or] at h
    rw [applyWrites_cons, ih h.2, update_of_ne h.1]

/-- Running `m` alone issues the block writes `W` and ends in `Q`. If `early` is
allowed, a panic may cut the run short, after a prefix of `W`. -/
def Issues (early : Prop) (p : P) (m : BioProg P α) (s : Store P) (W : List (ℕ × Block))
    (Q : α → Store P → Prop) : Prop :=
  match m.exec p s with
  | .ok a s' => s'.writes = s.writes ++ W ∧ Q a s'
  | .panic _ s' => early ∧ ∃ W', W' <+: W ∧ s'.writes = s.writes ++ W'
  | .stuck _ => False

variable {early : Prop} {p : P} {m : BioProg P α} {g : α → BioProg P β} {s : Store P}
  {W W' : List (ℕ × Block)} {Q : α → Store P → Prop} {R : β → Store P → Prop}

/-- Composition of runs appends their writes. -/
theorem Issues.bind (hm : Issues early p m s W Q)
    (hg : ∀ a s', Q a s' → Issues early p (g a) s' W' R) :
    Issues early p (m >>= g) s (W ++ W') R := by
  unfold Issues at hm ⊢
  rw [exec_bind]
  cases hexec : m.exec p s with
  | ok a s' =>
    rw [hexec] at hm
    obtain ⟨hw, hQ⟩ := hm
    have hnext := hg a s' hQ
    unfold Issues at hnext
    simp only [Outcome.bind_ok]
    cases hexec' : (g a).exec p s' with
    | ok b s'' =>
      rw [hexec'] at hnext
      refine ⟨?_, hnext.2⟩
      rw [hnext.1, hw, List.append_assoc]
    | panic msg s'' =>
      rw [hexec'] at hnext
      obtain ⟨hearly, V, hV, hw'⟩ := hnext
      refine ⟨hearly, W ++ V, (List.prefix_append_right_inj W).mpr hV, ?_⟩
      rw [hw', hw, List.append_assoc]
    | stuck s'' =>
      rw [hexec'] at hnext
      exact hnext
  | panic msg s' =>
    rw [hexec] at hm
    obtain ⟨hearly, V, hV, hw⟩ := hm
    exact ⟨hearly, V, hV.trans (List.prefix_append W W'), hw⟩
  | stuck s' =>
    rw [hexec] at hm
    exact hm

/-- A first part that writes nothing. -/
theorem Issues.bind_nil (hm : Issues early p m s [] Q)
    (hg : ∀ a s', Q a s' → Issues early p (g a) s' W R) :
    Issues early p (m >>= g) s W R := hm.bind hg

/-- Weakening of the postcondition. -/
theorem Issues.imp {Q' : α → Store P → Prop} (hm : Issues early p m s W Q)
    (himp : ∀ a s', Q a s' → Q' a s') : Issues early p m s W Q' := by
  unfold Issues at hm ⊢
  cases hexec : m.exec p s with
  | ok a s' => rw [hexec] at hm; exact ⟨hm.1, himp a s' hm.2⟩
  | panic msg s' => rw [hexec] at hm; exact hm
  | stuck s' => rw [hexec] at hm; exact hm

/-- Nothing is written. -/
theorem Issues.ret {a : α} (hQ : Q a s) : Issues early p (Prog.ret a) s [] Q :=
  ⟨(List.append_nil _).symm, hQ⟩

/-- A section that writes nothing. -/
theorem Issues.update {f : P → Store P → α × Store P} (hw : (f p s).2.writes = s.writes)
    (hQ : Q (f p s).1 (f p s).2) : Issues early p (Prog.update f) s [] Q := by
  refine ⟨?_, hQ⟩
  rw [hw, List.append_nil]

/-- A run that may not stop early completes. -/
theorem Issues.exists_ok (hm : Issues False p m s W Q) :
    ∃ a s', m.exec p s = .ok a s' ∧ s'.writes = s.writes ++ W ∧ Q a s' := by
  unfold Issues at hm
  cases hexec : m.exec p s with
  | ok a s' => rw [hexec] at hm; exact ⟨a, s', rfl, hm⟩
  | panic msg s' => rw [hexec] at hm; exact hm.1.elim
  | stuck s' => rw [hexec] at hm; exact hm.elim

variable [DecidableEq P]

/-- The cache and the disk represent the block map `V` for process `p`, which holds the
buffers `H`. The blocks of `D` are pinned, or kept by `p` in buffers that it held before: they
may be newer in the cache. -/
structure Alone (early : Prop) (p : P) (lg : Log) (H : List BufId) (V : ℕ → Block) (D : Set ℕ)
    (s : Store P) : Prop where
  /-- The log is as given. -/
  log_eq : s.log = lg
  /-- Every buffer is on the list. -/
  mem_lru : ∀ i, i ∈ s.lru
  /-- A block is cached at most once. -/
  uniq : ∀ i j b, (s.bufs i).caches lg.dev b → (s.bufs j).caches lg.dev b → i = j
  /-- The buffers of `H` are locked, and of the log's device. -/
  lock : ∀ i ∈ H, (s.bufs i).lock = some p ∧ (s.bufs i).dev = lg.dev
  /-- So are at most those kept for a block that is not listed. -/
  unlocked : ∀ i ∉ H, (s.bufs i).lock = none ∨ ∃ b ∈ D, b ∉ lg.lh ∧ (s.bufs i).caches lg.dev b
  /-- Held buffers and those of `D` are referenced; if no early stop is allowed, there are no
  other references. -/
  refs : ∀ i, ∃ n : ℤ, (s.bufs i).refcnt = (if i ∈ H then 1 else 0) + n ∧ 0 ≤ n ∧
    (∀ b ∈ D, (s.bufs i).caches lg.dev b → 1 ≤ n) ∧
    (early ∨ n = 0 ∨ n = 1 ∧ ∃ b ∈ D, (s.bufs i).caches lg.dev b)
  /-- Valid buffers hold the contents of `V`. -/
  cached : ∀ i b, (s.bufs i).caches lg.dev b → (s.bufs i).valid → (s.bufs i).data = V b
  /-- Blocks that are not pinned are on the disk. -/
  disk : ∀ b, b ∉ D → s.disk b = V b
  /-- Pinned blocks are in the cache. -/
  pinned : ∀ b, b ∈ D → ∃ i, (s.bufs i).caches lg.dev b ∧ (s.bufs i).valid

/-- There are more buffers than the ones in `H` and those that the blocks of `D` pin. -/
def Room (H : List BufId) (D : Set ℕ) : Prop :=
  ∃ l : List ℕ, (∀ b ∈ D, b ∈ l) ∧ H.length + l.length < nbuf

namespace Room

/-- Fewer pinned blocks leave as much room. -/
theorem mono {H : List BufId} {D D' : Set ℕ} (h : Room H D) (hsub : ∀ b ∈ D', b ∈ D) :
    Room H D' := by
  obtain ⟨l, hl, hlen⟩ := h
  exact ⟨l, fun b hb => hl b (hsub b hb), hlen⟩

/-- Nothing is kept. -/
theorem empty : Room [] ∅ := ⟨[], nofun, by decide⟩

/-- One buffer is held. -/
theorem single (i : BufId) : Room [i] ∅ := ⟨[], nofun, by simp [nbuf, maxopblocks]⟩

end Room

section Specs

variable {early : Prop} {p : P} {lg : Log} {H : List BufId} {V : ℕ → Block} {D : Set ℕ}
  {s s' : Store P}

omit [DecidableEq P] in
/-- The references to a buffer of block `b`. -/
theorem Alone.refs_of (h : Alone early p lg H V D s) {i : BufId} {b : ℕ}
    (hc : (s.bufs i).caches lg.dev b) : ∃ n : ℤ,
      (s.bufs i).refcnt = (if i ∈ H then 1 else 0) + n ∧ 0 ≤ n ∧ (b ∈ D → 1 ≤ n) ∧
      (early ∨ n = 0 ∨ n = 1 ∧ b ∈ D) := by
  obtain ⟨n, hn, hpos, hpin, hroom⟩ := h.refs i
  refine ⟨n, hn, hpos, fun hb => hpin b hb hc, hroom.imp_right (Or.imp_right fun hone => ?_)⟩
  obtain ⟨hone, b', hb', hc'⟩ := hone
  rw [(caches_iff.mp hc').2.symm.trans (caches_iff.mp hc).2] at hb'
  exact ⟨hone, hb'⟩

omit [DecidableEq P] in
/-- One buffer is replaced by `u`, which caches `b`; the map, the disk and the pins change at `b`
only. What the buffer cached before was not pinned. -/
theorem Alone.change (h : Alone early p lg H V D s) {i : BufId} {b : ℕ} {u : Buf P}
    {K : List BufId} {V' : ℕ → Block} {D' : Set ℕ} (hbufs : s'.bufs = update s.bufs i u)
    (hlru : ∀ j, j ∈ s'.lru) (hlog : s'.log = s.log) (hu : u.caches lg.dev b)
    (huniq : ∀ j, j ≠ i → ¬ (s.bufs j).caches lg.dev b)
    (hold : ∀ b' ∈ D, (s.bufs i).caches lg.dev b' → b' = b)
    (hK : ∀ j, j ≠ i → (j ∈ K ↔ j ∈ H)) (hD : ∀ b', b' ≠ b → (b' ∈ D' ↔ b' ∈ D))
    (hV : ∀ b', b' ≠ b → V' b' = V b') (hdisk : ∀ b', b' ≠ b → s'.disk b' = s.disk b')
    (hlock : u.lock = if i ∈ K then some p else none)
    (href : ∃ n : ℤ, u.refcnt = (if i ∈ K then 1 else 0) + n ∧ 0 ≤ n ∧ (b ∈ D' → 1 ≤ n) ∧
      (early ∨ n = 0 ∨ n = 1 ∧ b ∈ D'))
    (hdata : u.valid → u.data = V' b) (hpin : b ∈ D' → u.valid)
    (hsync : b ∉ D' → s'.disk b = V' b) : Alone early p lg K V' D' s' := by
  have hself : s'.bufs i = u := by rw [hbufs, update_self]
  have hother : ∀ j, j ≠ i → s'.bufs j = s.bufs j := fun j hj => by
    rw [hbufs, update_of_ne hj]
  have hblock : ∀ b', u.caches lg.dev b' → b' = b := fun b' hb' =>
    (caches_iff.mp hb').2.symm.trans (caches_iff.mp hu).2
  have hne : ∀ j, j ≠ i → ∀ b', (s.bufs j).caches lg.dev b' → b' ≠ b := by
    rintro j hj b' hc rfl
    exact huniq j hj hc
  refine ⟨hlog.trans h.log_eq, hlru, ?_, ?_, ?_, ?_, ?_, ?_, ?_⟩
  · intro j k b' hj hk
    by_cases hji : j = i <;> by_cases hki : k = i
    · exact hji.trans hki.symm
    · rw [hji, hself] at hj
      rw [hother k hki] at hk
      exact absurd (hblock b' hj) (hne k hki b' hk)
    · rw [hki, hself] at hk
      rw [hother j hji] at hj
      exact absurd (hblock b' hk) (hne j hji b' hj)
    · rw [hother j hji] at hj
      rw [hother k hki] at hk
      exact h.uniq j k b' hj hk
  · intro j hjK
    by_cases hji : j = i
    · subst hji
      rw [hself, hlock, if_pos hjK]
      exact ⟨rfl, (caches_iff.mp hu).1⟩
    · rw [hother j hji]
      exact h.lock j ((hK j hji).mp hjK)
  · intro j hjK
    by_cases hji : j = i
    · subst hji
      rw [hself, hlock, if_neg hjK]
      exact .inl rfl
    · rw [hother j hji]
      refine (h.unlocked j fun hj => hjK ((hK j hji).mpr hj)).imp_right ?_
      rintro ⟨b', hb', hlh, hc⟩
      exact ⟨b', (hD b' (hne j hji b' hc)).mpr hb', hlh, hc⟩
  · intro j
    by_cases hji : j = i
    · subst hji
      rw [hself]
      obtain ⟨n, hn, hpos, hone, hroom⟩ := href
      refine ⟨n, hn, hpos, fun b' hb' hc => hone (hblock b' hc ▸ hb'), ?_⟩
      exact hroom.imp_right (Or.imp_right fun hb => ⟨hb.1, b, hb.2, hu⟩)
    · rw [hother j hji, if_congr (hK j hji) rfl rfl]
      obtain ⟨n, hn, hpos, hone, hroom⟩ := h.refs j
      refine ⟨n, hn, hpos, fun b' hb' hc => hone b' ((hD b' (hne j hji b' hc)).mp hb') hc, ?_⟩
      refine hroom.imp_right (Or.imp_right ?_)
      rintro ⟨hn', b', hb', hc⟩
      exact ⟨hn', b', (hD b' (hne j hji b' hc)).mpr hb', hc⟩
  · intro j b' hc hv
    by_cases hji : j = i
    · rw [hji, hself] at hc hv ⊢
      rw [hblock b' hc]
      exact hdata hv
    · rw [hother j hji] at hc hv ⊢
      rw [hV b' (hne j hji b' hc)]
      exact h.cached j b' hc hv
  · intro b' hb'
    by_cases hbb : b' = b
    · rw [hbb] at hb' ⊢
      exact hsync hb'
    · rw [hdisk b' hbb, hV b' hbb]
      exact h.disk b' fun hb => hb' ((hD b' hbb).mpr hb)
  · intro b' hb'
    by_cases hbb : b' = b
    · rw [hbb] at hb' ⊢
      exact ⟨i, by rw [hself]; exact hu, by rw [hself]; exact hpin hb'⟩
    · have hb := (hD b' hbb).mp hb'
      obtain ⟨j, hc, hv⟩ := h.pinned b' hb
      have hji : j ≠ i := fun hji => hbb (hold b' hb (hji ▸ hc))
      exact ⟨j, by rw [hother j hji]; exact hc, by rw [hother j hji]; exact hv⟩

omit [DecidableEq P] in
/-- A change of a buffer that caches `b` already. -/
theorem Alone.touch (h : Alone early p lg H V D s) {i : BufId} {b : ℕ} {u : Buf P}
    {K : List BufId} {V' : ℕ → Block} {D' : Set ℕ} (hc : (s.bufs i).caches lg.dev b)
    (hbufs : s'.bufs = update s.bufs i u) (hlru : ∀ j, j ∈ s'.lru)
    (hlog : s'.log = s.log) (hu : u.caches lg.dev b) (hK : ∀ j, j ≠ i → (j ∈ K ↔ j ∈ H))
    (hD : ∀ b', b' ≠ b → (b' ∈ D' ↔ b' ∈ D)) (hV : ∀ b', b' ≠ b → V' b' = V b')
    (hdisk : ∀ b', b' ≠ b → s'.disk b' = s.disk b')
    (hlock : u.lock = if i ∈ K then some p else none)
    (href : ∃ n : ℤ, u.refcnt = (if i ∈ K then 1 else 0) + n ∧ 0 ≤ n ∧ (b ∈ D' → 1 ≤ n) ∧
      (early ∨ n = 0 ∨ n = 1 ∧ b ∈ D'))
    (hdata : u.valid → u.data = V' b) (hpin : b ∈ D' → u.valid)
    (hsync : b ∉ D' → s'.disk b = V' b) : Alone early p lg K V' D' s' :=
  h.change hbufs hlru hlog hu (fun j hj hcj => hj (h.uniq j i b hcj hc))
    (fun _ _ hc' => (caches_iff.mp hc').2.symm.trans (caches_iff.mp hc).2) hK hD hV hdisk hlock href
    hdata hpin hsync

omit [DecidableEq P] in
/-- A pinned block is valid in its buffer. -/
theorem Alone.valid_of_mem (h : Alone early p lg H V D s) {i : BufId} {b : ℕ}
    (hc : (s.bufs i).caches lg.dev b) (hb : b ∈ D) : (s.bufs i).valid := by
  obtain ⟨j, hcj, hv⟩ := h.pinned b hb
  rwa [h.uniq j i b hcj hc] at hv

omit [DecidableEq P] in
/-- A process that leaves room finds a buffer without references. -/
theorem Alone.exists_free (h : Alone early p lg H V D s) (hearly : ¬ early) (hroom : Room H D) :
    ∃ i, (s.bufs i).refcnt = 0 := by
  obtain ⟨l, hl, hlen⟩ := hroom
  by_contra hbusy
  push Not at hbusy
  -- A buffer that is not held is pinned by a block of `l`, and no other buffer by the same.
  have hpinned : ∀ i, i ∉ H → (s.bufs i).blockno ∈ l ∧ (s.bufs i).dev = lg.dev := by
    intro i hi
    obtain ⟨n, hn, -, -, hcount⟩ := h.refs i
    rcases hcount.resolve_left hearly with hzero | ⟨-, b, hb, hc⟩
    · rw [hzero, if_neg hi] at hn
      exact absurd hn (hbusy i)
    · obtain ⟨hdev, hblock⟩ := caches_iff.mp hc
      rw [hblock]
      exact ⟨hl b hb, hdev⟩
  have hinj : Set.InjOn (fun i => (s.bufs i).blockno)
      ((Finset.univ \ H.toFinset : Finset BufId) : Set BufId) := by
    intro i hi j hj hij
    simp only [Finset.coe_sdiff, Finset.coe_univ, Set.mem_sdiff, Set.mem_univ, true_and,
      Finset.mem_coe, List.mem_toFinset] at hi hj
    refine h.uniq i j (s.bufs i).blockno ?_ ?_
    · exact caches_iff.mpr ⟨(hpinned i hi).2, rfl⟩
    · exact caches_iff.mpr ⟨(hpinned j hj).2, hij.symm⟩
  have hcard : (Finset.univ \ H.toFinset : Finset BufId).card ≤ l.toFinset.card := by
    refine Finset.card_le_card_of_injOn _ ?_ hinj
    intro i hi
    have hi' : i ∉ H := by simpa using hi
    exact Finset.mem_coe.mpr (List.mem_toFinset.mpr (hpinned i hi').1)
  have hall := Finset.card_le_card_sdiff_add_card (s := (Finset.univ : Finset BufId))
    (t := H.toFinset)
  have hH := H.toFinset_card_le
  have hl' := l.toFinset_card_le
  rw [Finset.card_univ, Fintype.card_fin] at hall
  omega

/-- What `bread` returns: a locked valid buffer of the block, next to the held ones. -/
def Fetched (early : Prop) (p : P) (lg : Log) (H : List BufId) (V : ℕ → Block) (D : Set ℕ)
    (s : Store P) (b : ℕ) (i : BufId) (s' : Store P) : Prop :=
  Alone early p lg (i :: H) V D s' ∧ i ∉ H ∧ (s'.bufs i).caches lg.dev b ∧
    (s'.bufs i).valid = true ∧ ∀ j ∈ H, s'.bufs j = s.bufs j

omit [DecidableEq P] in
/-- The part of `bread` after the critical section of `bget`. -/
private theorem finish_bread (lg : Log) {i : BufId} {b : ℕ} {u : Buf P} (hlock : u.lock = none)
    (hblock : u.blockno = b)
    (hV : ∀ d : Block, (u.valid = true → d = u.data) → (u.valid = false → d = s.disk b) →
      Fetched early p lg H V D s b i
        ((s.claim p i u).setBuf i { u with lock := some p, valid := true, data := d })) :
    Issues early p (do
      acquiresleep i
      let valid ← Prog.read fun s => (s.bufs i).valid
      if !valid then virtioRead i
      return i) (s.claim p i u) [] (Fetched early p lg H V D s b) := by
  have hself : (s.claim p i u).bufs i = u := by
    simp [Store.claim, Store.setBuf, Store.setUsers]
  have hset : ∀ w w' : Buf P, ((s.claim p i u).setBuf i w).setBuf i w' =
      (s.claim p i u).setBuf i w' := fun w w' => by simp [Store.setBuf]
  have hget : ∀ w : Buf P, ((s.claim p i u).setBuf i w).bufs i = w := fun w => by
    simp [Store.setBuf]
  have hlocked : (acquiresleep i : BioProg P Unit).exec p (s.claim p i u) =
      .ok () ((s.claim p i u).setBuf i { u with lock := some p }) := by
    simp [acquiresleep, hself, hlock]
  unfold Issues
  rw [exec_bind, hlocked]
  simp only [Outcome.bind_ok, exec_bind, exec_read, hget]
  cases hv : u.valid with
  | true =>
    have := hV u.data (fun _ => rfl) (fun hf => by rw [hv] at hf; cases hf)
    refine ⟨(List.append_nil _).symm, ?_⟩
    rw [← hv]
    simpa only [hv] using this
  | false =>
    have := hV (s.disk b) (fun ht => by rw [hv] at ht; cases ht) (fun _ => rfl)
    refine ⟨(List.append_nil _).symm, ?_⟩
    simpa [virtioRead, hget, hset, hblock, Store.claim, Store.setBuf, Store.setUsers] using this

omit [DecidableEq P] in
/-- `bread` of a block that is not held delivers the contents that the cache and the disk
represent. It can only fail for lack of buffers, and not if the block is pinned or there is
room for it. -/
theorem bread_issues (h : Alone early p lg H V D s) {b : ℕ}
    (hfree : ∀ i ∈ H, ¬ (s.bufs i).caches lg.dev b) (hlh : b ∈ D → b ∈ lg.lh)
    (hroom : early ∨ b ∈ D ∨ Room H D) :
    Issues early p (bread lg.dev b) s [] (Fetched early p lg H V D s b) := by
  rw [bread_eq]
  unfold Issues
  rw [exec_bind, exec_step]
  unfold bgetSection
  cases hfind : s.lru.find? fun i => (s.bufs i).caches lg.dev b with
  | some i =>
    have hc : (s.bufs i).caches lg.dev b :=
      List.find?_some (p := fun i => (s.bufs i).caches lg.dev b) hfind
    have hi : i ∉ H := fun hi => hfree i hi hc
    have hlock : (s.bufs i).lock = none := by
      refine (h.unlocked i hi).resolve_right ?_
      rintro ⟨b', hb', hnot, hc'⟩
      rw [(caches_iff.mp hc').2.symm.trans (caches_iff.mp hc).2] at hb' hnot
      exact hnot (hlh hb')
    refine finish_bread lg hlock (caches_iff.mp hc).2 fun d hd hd' => ?_
    have hdV : d = V b := by
      cases hv : (s.bufs i).valid with
      | true => rw [hd hv]; exact h.cached i b hc hv
      | false =>
        rw [hd' hv]
        refine h.disk b fun hb => ?_
        rw [h.valid_of_mem hc hb] at hv
        cases hv
    refine ⟨?_, hi, ?_, ?_, ?_⟩
    · refine h.touch (u := { s.bufs i with
          refcnt := (s.bufs i).refcnt + 1, lock := some p, valid := true, data := d })
        hc ?_ h.mem_lru rfl hc (fun j hj => by simp [hj]) (fun _ _ => Iff.rfl) (fun _ _ => rfl)
        (fun _ _ => rfl) (by simp) ?_ (fun _ => hdV) (fun _ => rfl) (h.disk b)
      · simp [Store.claim, Store.setBuf, Store.setUsers]
      · obtain ⟨n, hn, hcount⟩ := h.refs_of hc
        refine ⟨n, ?_, hcount⟩
        rw [if_neg hi] at hn
        simp only [List.mem_cons_self, if_true]
        omega
    · simpa [Store.setBuf, Buf.caches] using hc
    · simp [Store.setBuf]
    · intro j hj
      have hji : j ≠ i := fun hji => hi (hji ▸ hj)
      simp [Store.claim, Store.setBuf, Store.setUsers, hji]
  | none =>
    have hmiss : ∀ j, ¬ (s.bufs j).caches lg.dev b := by
      intro j
      simpa using List.find?_eq_none.mp hfind j (h.mem_lru j)
    simp only
    cases hrec : s.lru.reverse.find? fun i => (s.bufs i).refcnt == 0 with
    | some i =>
      have hz : (s.bufs i).refcnt = 0 := by
        simpa using List.find?_some (p := fun i => (s.bufs i).refcnt == 0) hrec
      obtain ⟨n, hn, hpos, hpin, -⟩ := h.refs i
      have hi : i ∉ H := fun hi => by
        rw [if_pos hi] at hn
        omega
      have hunpinned : ∀ b' ∈ D, ¬ (s.bufs i).caches lg.dev b' := by
        intro b' hb' hc
        have := hpin b' hb' hc
        rw [if_neg hi] at hn
        omega
      have hlock : (s.bufs i).lock = none := by
        refine (h.unlocked i hi).resolve_right ?_
        rintro ⟨b', hb', -, hc⟩
        exact hunpinned b' hb' hc
      have hb : b ∉ D := by
        intro hb
        obtain ⟨j, hcj, -⟩ := h.pinned b hb
        exact hmiss j hcj
      refine finish_bread lg (u := { s.bufs i with
        dev := lg.dev, blockno := b, valid := false, refcnt := 1 }) hlock rfl fun d _ hd' => ?_
      have hdV : d = V b := (hd' rfl).trans (h.disk b hb)
      refine ⟨?_, hi, ?_, ?_, ?_⟩
      · refine h.change (b := b) (u := { s.bufs i with
            dev := lg.dev, blockno := b, refcnt := 1, lock := some p, valid := true, data := d })
          ?_ h.mem_lru rfl (by simp [Buf.caches]) (fun j _ => hmiss j)
          (fun b' hb' hc => absurd hc (hunpinned b' hb')) (fun j hj => by simp [hj])
          (fun _ _ => Iff.rfl) (fun _ _ => rfl) (fun _ _ => rfl) (by simp)
          ⟨0, by simp, le_rfl, fun hb' => absurd hb' hb, .inr (.inl rfl)⟩ (fun _ => hdV)
          (fun _ => rfl) (h.disk b)
        simp [Store.claim, Store.setBuf, Store.setUsers]
      · simp [Store.setBuf, Buf.caches]
      · simp [Store.setBuf]
      · intro j hj
        have hji : j ≠ i := fun hji => hi (hji ▸ hj)
        simp [Store.claim, Store.setBuf, Store.setUsers, hji]
    | none =>
      have hbusy : ∀ j, (s.bufs j).refcnt ≠ 0 := by
        intro j
        simpa using List.find?_eq_none.mp hrec j (List.mem_reverse.mpr (h.mem_lru j))
      refine ⟨?_, [], List.nil_prefix, (List.append_nil _).symm⟩
      by_contra hearly
      rcases hroom.resolve_left hearly with hb | hroom
      · obtain ⟨j, hcj, -⟩ := h.pinned b hb
        exact hmiss j hcj
      · obtain ⟨i, hi⟩ := h.exists_free hearly hroom
        exact hbusy i hi

/-- Storing data in a held buffer and writing it out changes one block of the map. -/
theorem store_issues {W : List (ℕ × Block)} {f : P → Store P → Unit × Store P}
    {g : BioProg P α} {Q : α → Store P → Prop} (h : Alone early p lg H V D s) {i : BufId} {b : ℕ}
    (hi : i ∈ H) (hc : (s.bufs i).caches lg.dev b) {d : Block} (hf : f p s = ((), s.setData i d))
    (hg : ∀ s', Alone early p lg H (update V b d) D s' → s'.disk b = d →
      (∀ j ∈ H, (s'.bufs j).dev = (s.bufs j).dev ∧ (s'.bufs j).blockno = (s.bufs j).blockno ∧
        (s'.bufs j).valid = (s.bufs j).valid) → Issues early p g s' W Q) :
    Issues early p (Prog.update f >>= fun _ => bwrite i >>= fun _ => g) s ((b, d) :: W) Q := by
  have hblock : (s.bufs i).blockno = b := (caches_iff.mp hc).2
  have hlock : (s.bufs i).lock = some p := (h.lock i hi).1
  have hbufs : ((s.setData i d).virtioWrite p i).bufs =
      update s.bufs i { s.bufs i with data := d } := rfl
  have hdisk : ((s.setData i d).virtioWrite p i).disk = update s.disk b d := by
    simp [Store.virtioWrite, Store.setData, Store.setBuf, hblock]
  have hsame : ∀ j, (((s.setData i d).virtioWrite p i).bufs j).dev = (s.bufs j).dev ∧
      (((s.setData i d).virtioWrite p i).bufs j).blockno = (s.bufs j).blockno ∧
      (((s.setData i d).virtioWrite p i).bufs j).valid = (s.bufs j).valid := by
    intro j
    by_cases hj : j = i
    · rw [hj, hbufs, update_self]
      exact ⟨rfl, rfl, rfl⟩
    · rw [hbufs, update_of_ne hj]
      exact ⟨rfl, rfl, rfl⟩
  have halone : Alone early p lg H (update V b d) D ((s.setData i d).virtioWrite p i) := by
    refine h.touch hc hbufs h.mem_lru rfl hc (fun _ _ => Iff.rfl) (fun _ _ => Iff.rfl)
      (fun b' hb' => update_of_ne hb' _ _) (fun b' hb' => ?_) ?_ (h.refs_of hc) ?_
      (h.valid_of_mem hc) ?_
    · rw [hdisk, update_of_ne hb']
    · rw [if_pos hi]
      exact hlock
    · rw [update_self]
      exact fun _ => rfl
    · rw [hdisk, update_self, update_self]
      exact fun _ => rfl
  have hnext := hg _ halone (by rw [hdisk, update_self]) fun j _ => hsame j
  have hlock' : ((s.setData i d).bufs i).lock = some p := by
    simpa [Store.setData, Store.setBuf] using hlock
  have hwrite : (bwrite i : BioProg P Unit).exec p (s.setData i d) =
      .ok () ((s.setData i d).virtioWrite p i) := by
    simp [bwrite, hlock']
  have hwrites : ((s.setData i d).virtioWrite p i).writes = s.writes ++ [(b, d)] := by
    simp [Store.virtioWrite, Store.setData, Store.setBuf, hblock]
  unfold Issues at hnext ⊢
  rw [exec_bind, exec_update, hf, Outcome.bind_ok, exec_bind, hwrite, Outcome.bind_ok]
  rw [hwrites] at hnext
  cases hexec : g.exec p ((s.setData i d).virtioWrite p i) with
  | ok a s'' =>
    rw [hexec] at hnext
    exact ⟨by rw [hnext.1, List.append_assoc]; rfl, hnext.2⟩
  | panic msg s'' =>
    rw [hexec] at hnext
    obtain ⟨hearly, W', hW', hw⟩ := hnext
    refine ⟨hearly, (b, d) :: W', (List.prefix_cons_inj _).mpr hW', ?_⟩
    rw [hw, List.append_assoc]
    rfl
  | stuck s'' =>
    rw [hexec] at hnext
    exact hnext

/-- `brelse` of a held buffer. -/
theorem brelse_issues {K : List BufId} (h : Alone early p lg H V D s) {i : BufId} (hi : i ∈ H)
    (hH : ∀ j, j ∈ K ↔ j ∈ H ∧ j ≠ i) :
    Issues early p (brelse i) s [] fun _ s' =>
      Alone early p lg K V D s' ∧ ∀ j, j ≠ i → s'.bufs j = s.bufs j := by
  obtain ⟨hlock, hdev⟩ := h.lock i hi
  have hc : (s.bufs i).caches lg.dev (s.bufs i).blockno := caches_iff.mpr ⟨hdev, rfl⟩
  have hK : i ∉ K := fun hmem => ((hH i).mp hmem).2 rfl
  let s1 := (s.setBuf i { s.bufs i with lock := none }).unref p i
  have hbufs : s1.bufs = update s.bufs i
      { s.bufs i with lock := none, refcnt := (s.bufs i).refcnt - 1 } := by
    simp only [s1, Store.unref]
    split <;> simp [Store.setBuf, Store.setUsers]
  have hlru : ∀ j, j ∈ s1.lru := by
    intro j
    simp only [s1, Store.unref]
    split
    · by_cases hj : j = i
      · simp [hj]
      · simpa [hj, Store.setBuf, Store.setUsers] using h.mem_lru j
    · exact h.mem_lru j
  obtain ⟨hlog, hdisk, hwrites⟩ : s1.log = s.log ∧ s1.disk = s.disk ∧ s1.writes = s.writes := by
    simp only [s1, Store.unref]
    split <;> exact ⟨rfl, rfl, rfl⟩
  have hexec : (brelse i : BioProg P Unit).exec p s = .ok () s1 := by
    simp [brelse, exec_bind, hlock, s1]
  have halone : Alone early p lg K V D s1 := by
    refine h.touch hc hbufs hlru hlog hc (fun j hj => by simp [hH, hj]) (fun _ _ => Iff.rfl)
      (fun _ _ => rfl) (fun _ _ => by rw [hdisk]) (by rw [if_neg hK]) ?_ (h.cached i _ hc)
      (h.valid_of_mem hc) (by rw [hdisk]; exact h.disk _)
    obtain ⟨n, hn, hcount⟩ := h.refs_of hc
    refine ⟨n, ?_, hcount⟩
    rw [if_pos hi] at hn
    rw [if_neg hK]
    dsimp only
    omega
  unfold Issues
  rw [hexec]
  refine ⟨by rw [hwrites, List.append_nil], halone, fun j hj => ?_⟩
  rw [hbufs, update_of_ne hj]

omit [DecidableEq P] in
/-- `bunpin` of a held buffer whose block has been written to the disk. -/
theorem bunpin_issues (h : Alone early p lg H V D s) {i : BufId} {b : ℕ} (hi : i ∈ H)
    (hc : (s.bufs i).caches lg.dev b) (hb : b ∈ D) (hdisk : s.disk b = V b) :
    Issues early p (bunpin i) s [] fun _ s' =>
      Alone early p lg H V (D \ {b}) s' ∧ ∀ j, j ≠ i → s'.bufs j = s.bufs j := by
  obtain ⟨n, hn, -, hpin, hcount⟩ := h.refs_of hc
  have hpos := hpin hb
  refine Issues.update rfl ⟨?_, fun j hj => update_of_ne hj _ _⟩
  refine h.touch (u := { s.bufs i with refcnt := (s.bufs i).refcnt - 1 }) hc rfl h.mem_lru rfl hc
    (fun _ _ => Iff.rfl) (fun b' hb' => by simp [hb']) (fun _ _ => rfl) (fun _ _ => rfl)
    ((h.lock i hi).1.trans (if_pos hi).symm) ⟨n - 1, ?_, ?_, fun hb' => absurd rfl hb'.2, ?_⟩
    (h.cached i b hc) (fun hb' => absurd rfl hb'.2) fun _ => hdisk
  · dsimp only
    omega
  · omega
  · exact hcount.imp_right fun hone => .inl (by omega)

end Specs

end RiscvKernel
