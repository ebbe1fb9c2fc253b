import RiscvKernel.Vm.Pages

/-!
# Page tables refine a partial map

A well-formed page table stands for a partial map from virtual pages to entries. `walk`
reads the map; with `alloc` set it adds tables but changes no translation, and `mappages`
and `uvmunmap` change the translations of their range and no others.
-/

namespace RiscvKernel

open Threads
open Threads.Seq (Runs bind_apply ok_bind pure_apply)
open Bytes (blit num)
open Option (bind_none bind_some)
open Radix (descend descend_congr descend_cons descend_snoc)

/-! ## The map of a page table -/

/-- The indices that lead from the top table to the table of level 0. -/
def path (va : ℕ) : ℕ → List (Fin 512)
  | 0 => []
  | level + 1 => px (level + 1) va :: path va level

/-- The pages of a page table. -/
def tables (mem : ℕ → UInt8) (root : ℕ) : Set ℕ := Radix.nodes (pteChild mem) 2 root

/-- The table of level 0 for an address. -/
def leafTable (mem : ℕ → UInt8) (root va : ℕ) : Option ℕ :=
  descend (pteChild mem) root (path va 2)

/-- The valid entry for an address. -/
def translate (mem : ℕ → UInt8) (root va : ℕ) : Option ℕ :=
  (leafTable mem root va).bind fun pt =>
    if hasFlag (pteAt mem pt (px 0 va)) pteV then some (pteAt mem pt (px 0 va)) else none

/-- A well-formed page table. -/
structure Table (mem : ℕ → UInt8) (root : ℕ) : Prop where
  /-- Each table is reached exactly once. -/
  tree : Radix.Tree (pteChild mem) 2 root
  /-- The top table is a page. -/
  mod : root % pgsize = 0
  /-- No table lies at the null address. -/
  nonzero : ∀ a ∈ tables mem root, a ≠ 0
  /-- The entries of the upper levels are invalid or point to a table. -/
  pointer : ∀ a ∈ Radix.nodes (pteChild mem) 1 root, ∀ i, hasFlag (pteAt mem a i) pteV = true →
    hasFlag (pteAt mem a i) (pteR ||| pteW ||| pteX) = false

section Indices

variable {va va' : ℕ}

/-- The three indices tell the pages below `2 ^ 39` apart. -/
theorem px_inj (hva : va < 2 ^ 39) (hva' : va' < 2 ^ 39) (h2 : px 2 va = px 2 va')
    (h1 : px 1 va = px 1 va') (h0 : px 0 va = px 0 va') : va / pgsize = va' / pgsize := by
  simp only [px, Fin.mk.injEq] at h2 h1 h0
  unfold pgsize
  omega

/-- Addresses of one page have the same indices, which do not see the bits above the 39th. -/
theorem px_congr (h : va / pgsize % 2 ^ 27 = va' / pgsize % 2 ^ 27) {level : ℕ}
    (hlevel : level ≤ 2) : px level va = px level va' := by
  unfold pgsize at h
  have hcases : level = 0 ∨ level = 1 ∨ level = 2 := by omega
  rcases hcases with rfl | rfl | rfl
  all_goals
    simp only [px, Fin.mk.injEq]
    omega

theorem path_congr (h : va / pgsize % 2 ^ 27 = va' / pgsize % 2 ^ 27) :
    path va 2 = path va' 2 := by
  simp only [path, px_congr h (by decide : 2 ≤ 2), px_congr h (by decide : 1 ≤ 2)]

@[simp] theorem length_path (va level : ℕ) : (path va level).length = level := by
  induction level with
  | zero => rfl
  | succ level ih => rw [path, List.length_cons, ih]

theorem translate_congr_px {mem : ℕ → UInt8} {root : ℕ}
    (h : va / pgsize % 2 ^ 27 = va' / pgsize % 2 ^ 27) :
    translate mem root va = translate mem root va' := by
  rw [translate, translate, leafTable, leafTable, path_congr h, px_congr h (by decide : 0 ≤ 2)]

/-- The page decides. -/
theorem translate_congr_va {mem : ℕ → UInt8} {root : ℕ} (h : va / pgsize = va' / pgsize) :
    translate mem root va = translate mem root va' := translate_congr_px (by rw [h])

/-- The map repeats itself above `2 ^ 39`. -/
theorem translate_mod {mem : ℕ → UInt8} {root : ℕ} (va : ℕ) :
    translate mem root va = translate mem root (va % 2 ^ 39) := by
  refine translate_congr_px ?_
  unfold pgsize
  omega

end Indices

section Frame

variable {mem mem' : ℕ → UInt8} {root : ℕ}

/-- Inner tables are tables. -/
theorem nodes_one_subset {a : ℕ} (h : a ∈ Radix.nodes (pteChild mem) 1 root) :
    a ∈ tables mem root := by
  obtain ⟨p, hp, hdesc⟩ := h
  exact ⟨p, by omega, hdesc⟩

/-- Leaf tables are tables. -/
theorem leafTable_mem {va pt : ℕ} (h : leafTable mem root va = some pt) : pt ∈ tables mem root :=
  ⟨path va 2, by simp, h⟩

/-- The tables below the top are pages. -/
theorem Table.mod_of_mem (ht : Table mem root) {a : ℕ} (ha : a ∈ tables mem root) :
    a % pgsize = 0 := by
  obtain ⟨p, -, hdesc⟩ := ha
  rcases List.eq_nil_or_concat p with rfl | ⟨q, i, rfl⟩
  · rw [← Option.some.inj hdesc]
    exact ht.mod
  · rw [List.concat_eq_append, descend_snoc, Option.bind_eq_some_iff] at hdesc
    obtain ⟨b, -, hchild⟩ := hdesc
    rw [pteChild] at hchild
    split at hchild
    · rw [← Option.some.inj hchild]
      exact pte2pa_mod _
    · cases hchild

/-- A table of level 0 is not a table of a higher level. -/
theorem Table.leaf_ne (ht : Table mem root) {va pt a : ℕ} (hleaf : leafTable mem root va = some pt)
    (ha : a ∈ Radix.nodes (pteChild mem) 1 root) : pt ≠ a := by
  obtain ⟨p, hp, hdesc⟩ := ha
  rintro rfl
  have := ht.tree (path va 2) p pt (by simp) (by omega) hleaf hdesc
  rw [← this] at hp
  simp at hp

/-- Two pages of the address space use different entries. -/
theorem Table.slot_ne (ht : Table mem root) {va va' pt : ℕ} (hva : va < 2 ^ 39)
    (hva' : va' < 2 ^ 39)
    (hpt : leafTable mem root va = some pt) (hpt' : leafTable mem root va' = some pt)
    (hne : va / pgsize ≠ va' / pgsize) : px 0 va ≠ px 0 va' := by
  intro h0
  have hpath := ht.tree _ _ _ (by simp) (by simp) hpt hpt'
  simp only [path, List.cons.injEq, and_true] at hpath
  exact hne (px_inj hva hva' hpath.1 hpath.2 h0)

/-- A page table only depends on its own pages. -/
theorem tables_congr (h : ∀ a ∈ tables mem root, ∀ x, InPage a x → mem' x = mem x) :
    tables mem' root = tables mem root :=
  Radix.nodes_congr fun _ ha => pteChild_congr (h _ (nodes_one_subset ha))

/-- Leaf tables depend on the tables. -/
theorem leafTable_congr (h : ∀ a ∈ tables mem root, ∀ x, InPage a x → mem' x = mem x) (va : ℕ) :
    leafTable mem' root va = leafTable mem root va :=
  descend_congr (d := 1) (by simp) fun _ ha => pteChild_congr (h _ (nodes_one_subset ha))

/-- The entry of an address depends on its table of level 0 and the entry there. -/
theorem translate_of_leaf {va : ℕ} (hleaf : leafTable mem' root va = leafTable mem root va)
    (hentry : ∀ pt, leafTable mem root va = some pt →
      pteAt mem' pt (px 0 va) = pteAt mem pt (px 0 va)) :
    translate mem' root va = translate mem root va := by
  rw [translate, translate, hleaf]
  cases hpt : leafTable mem root va with
  | none => rw [bind_none, bind_none]
  | some pt => rw [bind_some, bind_some, hentry pt hpt]

/-- Translations depend on the tables. -/
theorem translate_congr (h : ∀ a ∈ tables mem root, ∀ x, InPage a x → mem' x = mem x) (va : ℕ) :
    translate mem' root va = translate mem root va :=
  translate_of_leaf (leafTable_congr h va) fun _ hpt => pteAt_congr (h _ (leafTable_mem hpt)) _

/-- Memory changes elsewhere. -/
theorem Table.congr (ht : Table mem root)
    (h : ∀ a ∈ tables mem root, ∀ x, InPage a x → mem' x = mem x) : Table mem' root := by
  have hchild : ∀ a ∈ Radix.nodes (pteChild mem) 1 root, pteChild mem' a = pteChild mem a :=
    fun a ha => pteChild_congr (h a (nodes_one_subset ha))
  refine ⟨ht.tree.congr hchild, ht.mod, ?_, ?_⟩
  · rw [tables_congr h]
    exact ht.nonzero
  · intro a ha i
    have ha' : a ∈ Radix.nodes (pteChild mem) 1 root := by
      obtain ⟨p, hp, hdesc⟩ := ha
      exact ⟨p, hp, (descend_congr (d := 1) (by omega) hchild).symm.trans hdesc⟩
    rw [pteAt_congr (h a (nodes_one_subset ha'))]
    exact ht.pointer a ha' i

end Frame

/-! ## Walking without allocation -/

/-- The address of the entry for `va`, or 0. -/
def pteSlot (mem : ℕ → UInt8) (root va : ℕ) : ℕ :=
  match leafTable mem root va with
  | none => 0
  | some pt => pteAddr pt (px 0 va)

/-- One level of `walk`. -/
theorem walkNext_false (s : Vm) (pt : ℕ) (i : Fin 512) :
    walkNext false pt i s = .ok (pteChild s.mem pt i) s := by
  rw [walkNext, bind_apply, load_apply, ok_bind]
  by_cases hv : hasFlag (num s.mem (pteAddr pt i) 8) pteV = true
  · rw [if_pos hv, pteChild, pteAt, if_pos hv, pure_apply]
  · rw [if_neg hv, if_neg Bool.false_ne_true, pteChild, pteAt, if_neg hv, pure_apply]

/-- The loop of `walk`. -/
theorem walkFrom_false (s : Vm) (va level pt : ℕ) :
    walkFrom false va level pt s = .ok (match descend (pteChild s.mem) pt (path va level) with
      | none => 0
      | some pt' => pteAddr pt' (px 0 va)) s := by
  induction level generalizing pt with
  | zero => rfl
  | succ level ih =>
    rw [walkFrom, bind_apply, walkNext_false, ok_bind, path, descend_cons]
    cases pteChild s.mem pt (px (level + 1) va) with
    | none => rfl
    | some pt' => exact ih pt'

/-- `walk` without allocation reads the map and changes nothing. -/
theorem walk_false (s : Vm) {root va : ℕ} (hva : va < maxva) :
    walk root va false s = .ok (pteSlot s.mem root va) s := by
  rw [walk, if_neg (by omega), walkFrom_false, pteSlot, leafTable]

/-! ## Walking with allocation -/

variable {img : KernelImage} {s s' s'' : Vm} {root va : ℕ} {E : String → Prop}

/-- The page table is still well-formed, has only grown, and now stands for the map `f`. -/
structure Remaps (img : KernelImage) (s s' : Vm) (root : ℕ) (f : ℕ → Option ℕ) : Prop where
  /-- The table is well-formed. -/
  table : Table s'.mem root
  /-- New tables come from the allocator. -/
  moves : Moves img s s' (tables s.mem root) (tables s'.mem root)
  /-- No table is lost. -/
  sub : tables s.mem root ⊆ tables s'.mem root
  /-- The new map. -/
  map : ∀ va < 2 ^ 39, translate s'.mem root va = f va

theorem Remaps.refl (ht : Table s.mem root) (ho : Owns img s (tables s.mem root)) :
    Remaps img s s root (translate s.mem root) :=
  ⟨ht, Moves.refl ho, subset_rfl, fun _ _ => rfl⟩

theorem Remaps.trans {f g : ℕ → Option ℕ} (h : Remaps img s s' root f)
    (h' : Remaps img s' s'' root g) : Remaps img s s'' root g :=
  ⟨h'.table, h.moves.trans h'.moves, h.sub.trans h'.sub, h'.map⟩

theorem Remaps.congr {f g : ℕ → Option ℕ} (h : Remaps img s s' root f)
    (hfg : ∀ va < 2 ^ 39, f va = g va) : Remaps img s s' root g :=
  ⟨h.table, h.moves, h.sub, fun va hva => (h.map va hva).trans (hfg va hva)⟩

/-- A change outside the tables, by a program that owns `A`. -/
theorem Remaps.of_moves {A B : Set ℕ} (ht : Table s.mem root)
    (ho : Owns img s (tables s.mem root)) (h : Moves img s s' A B)
    (hdisj : ∀ a ∈ tables s.mem root, a ∉ A) :
    Table s'.mem root ∧ tables s'.mem root = tables s.mem root ∧
      ∀ va, translate s'.mem root va = translate s.mem root va := by
  have hsame : ∀ a ∈ tables s.mem root, ∀ x, InPage a x → s'.mem x = s.mem x :=
    fun a ha => h.same ho hdisj ha
  exact ⟨ht.congr hsame, tables_congr hsame, translate_congr hsame⟩

/-- Hanging a zeroed page into a free entry of an upper table. -/
theorem graft_table {p : List (Fin 512)} {pt r : ℕ} {i : Fin 512} (ht : Table s.mem root)
    (hp : p.length ≤ 1) (hpt : descend (pteChild s.mem) root p = some pt)
    (hfree : pteChild s.mem pt i = none) (hr : IsPage img r) (hnew : r ∉ tables s.mem root)
    {mem mem' : ℕ → UInt8} (hzero : ∀ x, InPage r x → mem x = 0)
    (hsame : ∀ a ∈ tables s.mem root, ∀ x, InPage a x → mem x = s.mem x)
    (hmem' : mem' = Bytes.put mem (pteAddr pt i) 8 (pa2pte r ||| pteV)) :
    Table mem' root ∧ tables mem' root = insert r (tables s.mem root) ∧
      (∀ va, translate mem' root va = translate s.mem root va) ∧
      descend (pteChild mem') root (p ++ [i]) = some r := by
  have hptmem : pt ∈ Radix.nodes (pteChild s.mem) 1 root := ⟨p, hp, hpt⟩
  have hptmod := ht.mod_of_mem (nodes_one_subset hptmem)
  have hrpt : r ≠ pt := fun h => hnew (h ▸ nodes_one_subset hptmem)
  have hv : pa2pte r ||| pteV < 2 ^ 64 := pa2pte_or_lt hr.lt (by decide)
  have hvalid : hasFlag (pa2pte r ||| pteV) pteV = true := by
    rw [hasFlag_or r (by decide) (by decide)]
    decide
  -- Pages other than that of the entry are as in `mem`.
  have hother : ∀ a, a % pgsize = 0 → a ≠ pt → ∀ x, InPage a x → mem' x = mem x :=
    fun a hmod hne x hx => hmem' ▸ put_outside fun hx' => hne (hx.eq hx' hmod hptmod)
  have hbare : ∀ j, pteAt mem' r j = 0 := fun j =>
    pteAt_zero (fun x hx => (hother r hr.mod hrpt x hx).trans (hzero x hx)) j
  have hrest : ∀ a ∈ tables s.mem root, a ≠ pt → ∀ x, InPage a x → mem' x = s.mem x :=
    fun a ha hne x hx => (hother a (ht.mod_of_mem ha) hne x hx).trans (hsame a ha x hx)
  have hg : Radix.Graft (pteChild s.mem) (pteChild mem') 1 root pt p i r := by
    refine ⟨hp, hpt, hfree, hnew, fun j => ?_, fun j => ?_, fun a ha hne => ?_⟩
    · rw [hmem', pteChild_put hv, if_pos hvalid, pte2pa_or hr.lt hr.mod (by decide),
        pteChild_congr (hsame pt (nodes_one_subset hptmem))]
    · rw [pteChild, hbare, hasFlag_zero]
      exact if_neg Bool.false_ne_true
    · exact pteChild_congr (hrest a (nodes_one_subset ha) hne)
  have htables : tables mem' root = insert r (tables s.mem root) := hg.nodes ht.tree
  refine ⟨⟨hg.tree ht.tree, ht.mod, ?_, ?_⟩, htables, fun va => ?_, ?_⟩
  · rw [htables]
    rintro a (rfl | ha)
    · exact hr.pos
    · exact ht.nonzero a ha
  · rintro a ⟨q, hq, hdesc⟩ j
    rw [hg.descend ht.tree (by omega)] at hdesc
    split at hdesc
    · rw [← Option.some.inj hdesc, hbare, hasFlag_zero]
      exact fun h => absurd h Bool.false_ne_true
    · by_cases hapt : a = pt
      · subst hapt
        rw [hmem', pteAt_put hv]
        split
        · intro _
          rw [hasFlag_or r (by decide) (by decide)]
          decide
        · rw [pteAt_congr (hsame a (nodes_one_subset hptmem))]
          exact ht.pointer a hptmem j
      · rw [pteAt_congr (hrest a (nodes_one_subset ⟨q, hq, hdesc⟩) hapt)]
        exact ht.pointer a ⟨q, hq, hdesc⟩ j
  · have hdesc : leafTable mem' root va = if path va 2 = p ++ [i] then some r
        else leafTable s.mem root va := hg.descend ht.tree (by simp)
    by_cases hpath : path va 2 = p ++ [i]
    · -- The new table has no entries, and there was none before.
      have hold : leafTable s.mem root va = none := by
        rw [leafTable, hpath, descend_snoc, hpt, bind_some, hfree]
      rw [translate, translate, hdesc, if_pos hpath, hold, bind_some, bind_none,
        hbare, hasFlag_zero, if_neg Bool.false_ne_true]
    · rw [if_neg hpath] at hdesc
      refine translate_of_leaf hdesc fun b hb => pteAt_congr ?_ _
      exact hrest b (leafTable_mem hb) (ht.leaf_ne hb hptmem)
  · rw [hg.descend ht.tree (by simpa using hp), if_pos rfl]

/-- One turn of `walk` with allocation. -/
theorem walkNext_runs {p : List (Fin 512)} {pt : ℕ} {i : Fin 512} (ht : Table s.mem root)
    (ho : Owns img s (tables s.mem root)) (hp : p.length ≤ 1)
    (hpt : descend (pteChild s.mem) root p = some pt) :
    Runs E (walkNext true pt i) s fun r s' =>
      Remaps img s s' root (translate s.mem root) ∧
      ∀ c, r = some c → descend (pteChild s'.mem) root (p ++ [i]) = some c := by
  refine .gets_bind ?_
  by_cases hv : hasFlag (num s.mem (pteAddr pt i) 8) pteV = true
  · rw [if_pos hv]
    refine .pure ⟨Remaps.refl ht ho, fun c hc => ?_⟩
    rw [descend_snoc, hpt, bind_some, pteChild, pteAt, if_pos hv]
    exact hc
  · rw [if_neg hv, if_pos rfl]
    have hfree : pteChild s.mem pt i = none := if_neg hv
    refine .bind (kalloc_runs (ho.mono (Set.empty_subset _))) ?_
    rintro r s1 (⟨rfl, hm, hmem⟩ | ⟨hr, hrfree, hm⟩)
    · rw [if_pos rfl]
      refine .pure ⟨?_, fun c hc => by cases hc⟩
      obtain ⟨ht', htab, htr⟩ := Remaps.of_moves ht ho hm fun _ _ => Set.notMem_empty _
      refine ⟨ht', ?_, htab.symm.subset, fun va _ => htr va⟩
      rw [htab]
      exact (hm.union ho fun _ _ => Set.notMem_empty _).of_eq
        (Set.empty_union _) (Set.empty_union _)
    · rw [if_neg hr.pos]
      have hnew : r ∉ tables s.mem root := fun h => ho.inUse r h hrfree
      have hptmem : pt ∈ tables s.mem root := ⟨p, by omega, hpt⟩
      -- The page is zeroed before it is hung into the tree.
      have hm1 : Moves img s (s1.setMem (blit s1.mem r pgsize fun _ => 0)) ∅ {r} :=
        hm.trans (Moves.blit hm.owns rfl 0 pgsize (by omega) _)
      refine .modify_bind (.modify_bind (.pure ?_))
      have hzero : ∀ x, InPage r x → blit s1.mem r pgsize (fun _ => 0) x = 0 :=
        fun x hx => Bytes.blit_inside _ _ hx.1 hx.2
      obtain ⟨ht', htab, htr, hdesc⟩ := graft_table ht hp hpt hfree hr hnew hzero
        (fun a ha => hm1.same ho (fun _ _ => Set.notMem_empty _) ha) rfl
      have hm2 := (hm1.union ho fun _ _ => Set.notMem_empty _).trans
        (Moves.write (hm1.union ho fun _ _ => Set.notMem_empty _).owns (.inr hptmem)
          fun x hx => put_outside (v := pa2pte r ||| pteV) (i := i) hx)
      refine ⟨⟨ht', hm2.of_eq (Set.empty_union _) ?_, ?_, fun va _ => htr va⟩, fun c hc => ?_⟩
      · rw [Set.singleton_union]
        exact htab.symm
      · exact (Set.subset_insert r _).trans htab.symm.subset
      · rw [← Option.some.inj hc]
        exact hdesc

/-- The loop of `walk` with allocation, from the table at the end of `p`. -/
theorem walkFrom_runs {p : List (Fin 512)} {level pt : ℕ} (ht : Table s.mem root)
    (ho : Owns img s (tables s.mem root)) (hp : p ++ path va level = path va 2)
    (hpt : descend (pteChild s.mem) root p = some pt) :
    Runs E (walkFrom true va level pt) s fun r s' =>
      Remaps img s s' root (translate s.mem root) ∧
      (r = 0 ∨ ∃ pt', leafTable s'.mem root va = some pt' ∧ r = pteAddr pt' (px 0 va)) := by
  induction level generalizing s p pt with
  | zero =>
    rw [path, List.append_nil] at hp
    exact .pure ⟨Remaps.refl ht ho, .inr ⟨pt, by rw [leafTable, ← hp, hpt], rfl⟩⟩
  | succ level ih =>
    have hlen : p.length ≤ 1 := by
      have := congrArg List.length hp
      simp only [List.length_append, length_path] at this
      omega
    refine .bind (walkNext_runs ht ho hlen hpt) ?_
    rintro (_ | pt') s1 ⟨h1, hdesc⟩
    · exact .pure ⟨h1, .inl rfl⟩
    · refine (ih h1.table h1.moves.owns ?_ (hdesc pt' rfl)).mono fun r s2 ⟨h2, hr⟩ => ?_
      · rw [List.append_assoc]
        exact hp
      · exact ⟨h1.trans (h2.congr h1.map), hr⟩

/-- `walk` with allocation adds tables, changes no translation, and fails only when it
returns 0. -/
theorem walk_runs (ht : Table s.mem root) (ho : Owns img s (tables s.mem root))
    (hva : va < maxva) :
    Runs E (walk root va true) s fun r s' =>
      Remaps img s s' root (translate s.mem root) ∧
      (r = 0 ∨ ∃ pt, leafTable s'.mem root va = some pt ∧ r = pteAddr pt (px 0 va)) := by
  rw [walk, if_neg (by omega)]
  exact walkFrom_runs (p := []) ht ho rfl rfl

/-! ## Storing entries -/

/-- The map after the entry of one page is replaced. -/
def replaceEntry (f : ℕ → Option ℕ) (va : ℕ) (e : Option ℕ) (va' : ℕ) : Option ℕ :=
  if va' / pgsize = va / pgsize then e else f va'

/-- Storing an entry of level 0 replaces the translation of its page. -/
theorem store_leaf {pt v : ℕ} (ht : Table s.mem root) (ho : Owns img s (tables s.mem root))
    (hva : va < 2 ^ 39) (hpt : leafTable s.mem root va = some pt) (hv : v < 2 ^ 64) :
    Remaps img s (s.setMem (Bytes.put s.mem (pteAddr pt (px 0 va)) 8 v)) root
      (replaceEntry (translate s.mem root) va (if hasFlag v pteV then some v else none)) := by
  have hptmem := leafTable_mem hpt
  have hptmod := ht.mod_of_mem hptmem
  have hother : ∀ a ∈ tables s.mem root, a ≠ pt → ∀ x, InPage a x →
      Bytes.put s.mem (pteAddr pt (px 0 va)) 8 v x = s.mem x :=
    fun a ha hne x hx => put_outside fun hx' => hne (hx.eq hx' (ht.mod_of_mem ha) hptmod)
  have hupper : ∀ a ∈ Radix.nodes (pteChild s.mem) 1 root, ∀ x, InPage a x →
      Bytes.put s.mem (pteAddr pt (px 0 va)) 8 v x = s.mem x :=
    fun a ha => hother a (nodes_one_subset ha) (ht.leaf_ne hpt ha).symm
  have hchild : ∀ a ∈ Radix.nodes (pteChild s.mem) 1 root,
      pteChild (Bytes.put s.mem (pteAddr pt (px 0 va)) 8 v) a = pteChild s.mem a :=
    fun a ha => pteChild_congr (hupper a ha)
  have htables : tables (Bytes.put s.mem (pteAddr pt (px 0 va)) 8 v) root = tables s.mem root :=
    Radix.nodes_congr hchild
  have hleaf : ∀ va', leafTable (Bytes.put s.mem (pteAddr pt (px 0 va)) 8 v) root va' =
      leafTable s.mem root va' := fun va' => descend_congr (d := 1) (by simp) hchild
  refine ⟨⟨ht.tree.congr hchild, ht.mod, ?_, ?_⟩, ?_, htables.symm.subset, ?_⟩
  · rw [Vm.setMem, htables]
    exact ht.nonzero
  · rintro a ⟨q, hq, hdesc⟩ i
    have ha : a ∈ Radix.nodes (pteChild s.mem) 1 root :=
      ⟨q, hq, (descend_congr (d := 1) (by omega) hchild).symm.trans hdesc⟩
    rw [Vm.setMem, pteAt_congr (hupper a ha)]
    exact ht.pointer a ha i
  · refine (Moves.write ho hptmem fun x hx => put_outside hx).of_eq rfl ?_
    exact htables.symm
  · intro va' hva'
    unfold replaceEntry
    split
    · rename_i hsame
      rw [translate_congr_va hsame, translate, Vm.setMem, hleaf, hpt, bind_some, pteAt_put hv,
        if_pos rfl]
    · rename_i hne
      refine translate_of_leaf (hleaf va') fun b hb => ?_
      by_cases hbpt : b = pt
      · subst hbpt
        rw [Vm.setMem, pteAt_put hv, if_neg (ht.slot_ne hva' hva hb hpt hne)]
      · exact pteAt_congr (hother b (leafTable_mem hb) hbpt) _

/-- What `walk` finds is the entry of the map. -/
theorem translate_of_slot {pt : ℕ} {mem : ℕ → UInt8} (hpt : leafTable mem root va = some pt) :
    translate mem root va = if hasFlag (num mem (pteAddr pt (px 0 va)) 8) pteV
      then some (num mem (pteAddr pt (px 0 va)) 8) else none := by
  rw [translate, hpt, bind_some, pteAt]

/-- Entries that are found are valid. -/
theorem translate_valid {e : ℕ} {mem : ℕ → UInt8} (he : translate mem root va = some e) :
    hasFlag e pteV = true := by
  rw [translate, Option.bind_eq_some_iff] at he
  obtain ⟨pt, -, he⟩ := he
  split at he
  · rename_i hv
    rwa [← Option.some.inj he]
  · cases he

/-- No entry is at address 0. -/
theorem Table.slot_ne_zero {pt : ℕ} {mem : ℕ → UInt8} (ht : Table mem root)
    (hpt : leafTable mem root va = some pt) : pteAddr pt (px 0 va) ≠ 0 := by
  have := ht.nonzero pt (leafTable_mem hpt)
  unfold pteAddr
  omega

/-! ## Mapping -/

/-- The entry that `mappages` stores for the page at `pa`. -/
def pteFor (pa perm : ℕ) : ℕ := pa2pte pa ||| perm ||| pteV

theorem pteFor_lt (pa : ℕ) {perm : ℕ} (hperm : perm < 2 ^ 64) : pteFor pa perm < 2 ^ 64 :=
  Nat.or_lt_two_pow (Nat.or_lt_two_pow (Nat.mod_lt _ (by decide)) hperm) (by decide)

/-- The entry stored is valid. -/
theorem hasFlag_pteFor (pa perm : ℕ) : hasFlag (pteFor pa perm) pteV = true := by
  have hmod : pteFor pa perm % 2 = 1 := Nat.or_mod_two_eq_one.mpr (.inr rfl)
  rw [hasFlag, pteV, Nat.and_one_is_mod, hmod]
  rfl

/-- The map after `n` pages from `va` on are mapped to `pa`. -/
def mapRange (f : ℕ → Option ℕ) (va pa perm n va' : ℕ) : Option ℕ :=
  if va / pgsize ≤ va' / pgsize ∧ va' / pgsize < va / pgsize + n then
    some (pteFor ((pa + (va' / pgsize - va / pgsize) * pgsize) % 2 ^ 64) perm)
  else f va'

/-- Mapping one page and then the rest. -/
theorem mapRange_succ {f : ℕ → Option ℕ} {va pa perm n : ℕ} (hpa : pa < 2 ^ 64)
    (hva : va + pgsize < 2 ^ 64) (va' : ℕ) :
    mapRange (replaceEntry f va (some (pteFor pa perm))) ((va + pgsize) % 2 ^ 64)
      ((pa + pgsize) % 2 ^ 64) perm n va' = mapRange f va pa perm (n + 1) va' := by
  have hnext : (va + pgsize) % 2 ^ 64 / pgsize = va / pgsize + 1 := by
    rw [Nat.mod_eq_of_lt hva, Nat.add_div_right _ (by decide)]
  unfold mapRange replaceEntry
  rw [hnext]
  by_cases hfirst : va' / pgsize = va / pgsize
  · rw [if_neg (by omega), if_pos hfirst, if_pos (by omega), hfirst, Nat.sub_self, Nat.zero_mul,
      Nat.add_zero, Nat.mod_eq_of_lt hpa]
  · by_cases hin : va / pgsize + 1 ≤ va' / pgsize ∧ va' / pgsize < va / pgsize + 1 + n
    · obtain ⟨k, hk⟩ : ∃ k, va' / pgsize = va / pgsize + 1 + k :=
        ⟨_, (Nat.add_sub_of_le hin.1).symm⟩
      have hpage : pa + pgsize + k * pgsize = pa + (k + 1) * pgsize := by
        rw [Nat.add_mul, Nat.one_mul, Nat.add_assoc, Nat.add_comm pgsize]
      rw [if_pos hin, if_pos (by omega), hk, Nat.add_sub_cancel_left,
        show va / pgsize + 1 + k - va / pgsize = k + 1 by omega, Nat.mod_add_mod, hpage]
    · rw [if_neg hin, if_neg hfirst, if_neg (by omega)]

/-- One turn of `mappages` on a page that is not mapped. -/
theorem mapPage_runs {pa perm : ℕ} (ht : Table s.mem root) (ho : Owns img s (tables s.mem root))
    (hva : va < maxva) (hperm : perm < 2 ^ 64) (hfree : translate s.mem root va = none) :
    Runs E (mapPage root va pa perm) s fun r s' =>
      (r = 0 ∧ Remaps img s s' root
        (replaceEntry (translate s.mem root) va (some (pteFor pa perm)))) ∨
      (r = -1 ∧ Remaps img s s' root (translate s.mem root)) := by
  have hva39 : va < 2 ^ 39 := lt_trans hva (by decide)
  refine .bind (walk_runs ht ho hva) ?_
  rintro r s1 ⟨h1, hr⟩
  by_cases hr0 : r = 0
  · rw [if_pos hr0]
    exact .pure (.inr ⟨rfl, h1⟩)
  · obtain ⟨pt, hpt, rfl⟩ := hr.resolve_left hr0
    rw [if_neg hr0]
    refine .gets_bind ?_
    have hinvalid : ¬ hasFlag (num s1.mem (pteAddr pt (px 0 va)) 8) pteV = true := by
      intro hv
      have := h1.map va hva39
      rw [hfree, translate_of_slot hpt, if_pos hv] at this
      cases this
    rw [if_neg hinvalid]
    refine .modify_bind (.pure (.inl ⟨rfl, ?_⟩))
    have h2 := store_leaf h1.table h1.moves.owns hva39 hpt (pteFor_lt pa hperm)
    refine h1.trans (h2.congr fun va' hva' => ?_)
    rw [if_pos (hasFlag_pteFor pa perm), replaceEntry, replaceEntry, h1.map va' hva']

/-- The loop of `mappages`: all pages are mapped, or a first part of them is. -/
theorem mappagesFrom_runs {perm n a pa : ℕ} (ht : Table s.mem root)
    (ho : Owns img s (tables s.mem root)) (ha : a % pgsize = 0)
    (hend : a + (n + 1) * pgsize ≤ maxva) (hperm : perm < 2 ^ 64) (hpa : pa < 2 ^ 64)
    (hfree : ∀ k ≤ n, translate s.mem root (a + k * pgsize) = none) :
    Runs E (mappagesFrom root perm n a pa) s fun r s' =>
      (r = 0 ∧ Remaps img s s' root (mapRange (translate s.mem root) a pa perm (n + 1))) ∨
      (r = -1 ∧ ∃ m ≤ n, Remaps img s s' root (mapRange (translate s.mem root) a pa perm m)) := by
  have hmaxva : maxva < 2 ^ 39 := by decide
  have hpg : pgsize = 4096 := rfl
  have hfirst : translate s.mem root a = none := by simpa using hfree 0 (Nat.zero_le n)
  have hone : ∀ va', mapRange (translate s.mem root) a pa perm 0 va' = translate s.mem root va' :=
    fun va' => if_neg (by omega)
  induction n generalizing s a pa with
  | zero =>
    refine (mapPage_runs ht ho (by omega) hperm hfirst).mono ?_
    rintro r s1 (⟨rfl, h⟩ | ⟨rfl, h⟩)
    · refine .inl ⟨rfl, h.congr fun va' _ => ?_⟩
      rw [← mapRange_succ hpa (by omega), mapRange, if_neg (by omega)]
    · exact .inr ⟨rfl, 0, le_rfl, h.congr fun va' _ => (hone va').symm⟩
  | succ n ih =>
    rw [mappagesFrom]
    have hbound : a + pgsize + (n + 1) * pgsize ≤ maxva := by
      simp only [pgsize] at *
      omega
    refine .bind (mapPage_runs ht ho (by omega) hperm hfirst) ?_
    rintro r s1 (⟨rfl, h1⟩ | ⟨rfl, h1⟩)
    · rw [if_neg (by simp)]
      have hnext : (a + pgsize) % 2 ^ 64 = a + pgsize := Nat.mod_eq_of_lt (by omega)
      have hmap : ∀ m, ∀ va' < 2 ^ 39, mapRange (translate s1.mem root) ((a + pgsize) % 2 ^ 64)
          ((pa + pgsize) % 2 ^ 64) perm m va' =
          mapRange (translate s.mem root) a pa perm (m + 1) va' := by
        intro m va' hva'
        rw [← mapRange_succ hpa (by omega), mapRange, mapRange, h1.map va' hva']
      have hrest : ∀ k ≤ n, translate s1.mem root ((a + pgsize) % 2 ^ 64 + k * pgsize) = none := by
        intro k hk
        have hpage : a + pgsize + k * pgsize = a + (k + 1) * pgsize := by
          rw [Nat.add_mul, Nat.one_mul, Nat.add_assoc, Nat.add_comm pgsize]
        have hlt : (k + 1) * pgsize ≤ (n + 1) * pgsize := Nat.mul_le_mul_right _ (by omega)
        have hne : ¬ (a + (k + 1) * pgsize) / pgsize = a / pgsize := by
          rw [Nat.add_mul_div_right _ _ (by decide)]
          omega
        rw [hnext, hpage, h1.map _ (by omega), replaceEntry, if_neg hne]
        exact hfree (k + 1) (by omega)
      refine (ih h1.table h1.moves.owns (by rw [hnext, Nat.add_mod_right, ha])
        (by rw [hnext]; exact hbound) (Nat.mod_lt _ (by decide)) hrest
        (by simpa using hrest 0 (Nat.zero_le n)) (fun va' => if_neg (by omega))).mono ?_
      rintro r s2 (⟨rfl, h2⟩ | ⟨rfl, m, hm, h2⟩)
      · exact .inl ⟨rfl, h1.trans (h2.congr (hmap (n + 1)))⟩
      · exact .inr ⟨rfl, m + 1, by omega, h1.trans (h2.congr (hmap m))⟩
    · rw [if_pos (by decide)]
      exact .pure (.inr ⟨rfl, 0, Nat.zero_le _, h1.congr fun va' _ => (hone va').symm⟩)

/-- `mappages` on a range none of whose pages is mapped. -/
theorem mappages_runs {size pa perm : ℕ} (ht : Table s.mem root)
    (ho : Owns img s (tables s.mem root)) (hva : va % pgsize = 0) (hsize : size % pgsize = 0)
    (hpos : 0 < size) (hend : va + size ≤ maxva) (hperm : perm < 2 ^ 64) (hpa : pa < 2 ^ 64)
    (hfree : ∀ k < size / pgsize, translate s.mem root (va + k * pgsize) = none) :
    Runs E (mappages root va size pa perm) s fun r s' =>
      (r = 0 ∧ Remaps img s s' root
        (mapRange (translate s.mem root) va pa perm (size / pgsize))) ∨
      (r = -1 ∧ ∃ m < size / pgsize, Remaps img s s' root
        (mapRange (translate s.mem root) va pa perm m)) := by
  obtain ⟨n, rfl⟩ : ∃ n, size = (n + 1) * pgsize := by
    refine ⟨size / pgsize - 1, ?_⟩
    simp only [pgsize] at *
    omega
  have hn : (n + 1) * pgsize / pgsize = n + 1 := Nat.mul_div_cancel _ (by decide)
  rw [mappages, if_neg (by omega), if_neg (by omega), if_neg (by omega), hn, Nat.add_sub_cancel]
  rw [hn] at hfree
  refine (mappagesFrom_runs ht ho hva hend hperm hpa fun k hk => hfree k (by omega)).mono ?_
  rintro r s1 (h | ⟨rfl, m, hm, h⟩)
  · exact .inl h
  · exact .inr ⟨rfl, m, by omega, h⟩

/-- A page of zeros is an empty page table. -/
theorem empty_table {mem : ℕ → UInt8} (hzero : ∀ x, InPage root x → mem x = 0)
    (hmod : root % pgsize = 0) (hne : root ≠ 0) :
    Table mem root ∧ tables mem root = {root} ∧ ∀ va, translate mem root va = none := by
  have hpte : ∀ i, pteAt mem root i = 0 := pteAt_zero hzero
  have hchild : ∀ i, pteChild mem root i = none := fun i => by
    rw [pteChild, hpte, hasFlag_zero, if_neg Bool.false_ne_true]
  have hroot : ∀ p a, descend (pteChild mem) root p = some a → p = [] ∧ a = root := by
    intro p a hp
    cases p with
    | nil => exact ⟨rfl, (Option.some.inj hp).symm⟩
    | cons i p =>
      rw [descend_cons, hchild] at hp
      cases hp
  have htables : tables mem root = {root} := by
    ext a
    constructor
    · rintro ⟨p, -, hp⟩
      exact (hroot p a hp).2
    · rintro rfl
      exact Radix.root_mem_nodes
  refine ⟨⟨?_, hmod, ?_, ?_⟩, htables, fun va => ?_⟩
  · intro p q b _ _ hp hq
    rw [(hroot p b hp).1, (hroot q b hq).1]
  · rw [htables]
    rintro a rfl
    exact hne
  · rintro a ⟨p, -, hp⟩ i h
    rw [(hroot p a hp).2, hpte, hasFlag_zero] at h
    cases h
  · rw [translate, leafTable, path, descend_cons, hchild]
    rfl

/-! ## Unmapping -/

/-- The map without the `n` pages from `va` on. -/
def unmapRange (f : ℕ → Option ℕ) (va n va' : ℕ) : Option ℕ :=
  if va / pgsize ≤ va' / pgsize ∧ va' / pgsize < va / pgsize + n then none else f va'

/-- Unmapping one page and then the rest. -/
theorem unmapRange_succ (f : ℕ → Option ℕ) (va n va' : ℕ) :
    unmapRange (replaceEntry f va none) (va + pgsize) n va' = unmapRange f va (n + 1) va' := by
  have hnext : (va + pgsize) / pgsize = va / pgsize + 1 := Nat.add_div_right _ (by decide)
  unfold unmapRange replaceEntry
  rw [hnext]
  by_cases hfirst : va' / pgsize = va / pgsize
  · rw [if_neg (by omega), if_pos hfirst, if_pos (by omega)]
  · by_cases hin : va / pgsize + 1 ≤ va' / pgsize ∧ va' / pgsize < va / pgsize + 1 + n
    · rw [if_pos hin, if_pos (by omega)]
    · rw [if_neg hin, if_neg hfirst, if_neg (by omega)]

/-- The number of turns of the loop of `uvmunmap`. -/
theorem uvmunmap_eq {npages : ℕ} (doFree : Bool) (hva : va % pgsize = 0)
    (hend : va + npages * pgsize ≤ maxva) :
    uvmunmap img root va npages doFree = unmapFrom img root doFree npages va := by
  have hmaxva : maxva < 2 ^ 64 := by decide
  rw [uvmunmap, if_neg (by omega)]
  dsimp only
  rw [Nat.mod_eq_of_lt (by omega), Nat.add_sub_cancel_left, Nat.mul_div_cancel _ (by decide)]

/-- `walk` finds the entry for a mapped page, and what it finds for others is not valid. -/
theorem pteSlot_cases {mem : ℕ → UInt8} (ht : Table mem root) (va : ℕ) :
    (pteSlot mem root va = 0 ∧ translate mem root va = none) ∨
    ∃ pt, leafTable mem root va = some pt ∧ pteSlot mem root va = pteAddr pt (px 0 va) ∧
      pteAddr pt (px 0 va) ≠ 0 := by
  cases hpt : leafTable mem root va with
  | none =>
    left
    rw [pteSlot, hpt, translate, hpt]
    exact ⟨rfl, rfl⟩
  | some pt =>
    right
    refine ⟨pt, rfl, ?_, ht.slot_ne_zero hpt⟩
    rw [pteSlot, hpt]

/-- The map is unchanged where nothing was mapped. -/
theorem replaceEntry_none {f : ℕ → Option ℕ} (hf : ∀ va', va' / pgsize = va / pgsize →
    f va' = none) (va' : ℕ) : replaceEntry f va none va' = f va' := by
  unfold replaceEntry
  split
  · rename_i h
    exact (hf va' h).symm
  · rfl

/-- One turn of `uvmunmap` that keeps the physical page. -/
theorem unmapPage_runs (ht : Table s.mem root) (ho : Owns img s (tables s.mem root))
    (hva : va < maxva) :
    Runs E (unmapPage img root va false) s fun _ s' =>
      Remaps img s s' root (replaceEntry (translate s.mem root) va none) := by
  have hva39 : va < 2 ^ 39 := lt_trans hva (by decide)
  have hkeep : translate s.mem root va = none →
      Remaps img s s root (replaceEntry (translate s.mem root) va none) := fun hnone =>
    (Remaps.refl ht ho).congr fun va' _ => (replaceEntry_none (fun va'' h => by
      rw [translate_congr_va h, hnone]) va').symm
  refine .of_eq_bind (walk_false s hva) ?_
  rcases pteSlot_cases ht va with ⟨hslot, hnone⟩ | ⟨pt, hpt, hslot, hne⟩
  · rw [if_pos hslot]
    exact .pure (hkeep hnone)
  · rw [hslot, if_neg hne]
    refine .gets_bind ?_
    by_cases hv : hasFlag (num s.mem (pteAddr pt (px 0 va)) 8) pteV = false
    · rw [if_pos hv]
      refine .pure (hkeep ?_)
      rw [translate_of_slot hpt, hv, if_neg Bool.false_ne_true]
    · rw [if_neg hv]
      rw [if_neg Bool.false_ne_true]
      refine .modify ?_
      have h := store_leaf ht ho hva39 hpt (v := 0) (by decide)
      rwa [hasFlag_zero, if_neg Bool.false_ne_true] at h

/-- The loop of `uvmunmap` that keeps the physical pages. -/
theorem unmapFrom_runs {n : ℕ} (ht : Table s.mem root) (ho : Owns img s (tables s.mem root))
    (hend : va + n * pgsize ≤ maxva) :
    Runs E (unmapFrom img root false n va) s fun _ s' =>
      Remaps img s s' root (unmapRange (translate s.mem root) va n) := by
  induction n generalizing s va with
  | zero =>
    refine .pure ((Remaps.refl ht ho).congr fun va' _ => ?_)
    exact (if_neg (by omega)).symm
  | succ n ih =>
    have hbound : va + pgsize + n * pgsize ≤ maxva := by
      simp only [pgsize] at *
      omega
    have hpos : 0 < pgsize := by decide
    refine .bind (unmapPage_runs ht ho (by omega)) fun _ s1 h1 => ?_
    refine (ih h1.table h1.moves.owns hbound).mono fun _ s2 h2 =>
      h1.trans (h2.congr fun va' hva' => ?_)
    rw [← unmapRange_succ, unmapRange, unmapRange, h1.map va' hva']

/-! ## The refinement -/

/-- What `walkaddr` returns for an entry of the map. -/
def userPa : Option ℕ → ℕ
  | none => 0
  | some e => if hasFlag e pteU then pte2pa e else 0

/-- `walkaddr` reads the map. -/
theorem walkaddr_eq (ht : Table s.mem root) (va : ℕ) :
    walkaddr root va s = .ok (if va ≥ maxva then 0 else userPa (translate s.mem root va)) s := by
  rw [walkaddr]
  by_cases hva : va ≥ maxva
  · rw [if_pos hva, if_pos hva, pure_apply]
  · rw [if_neg hva, if_neg hva, bind_apply, walk_false s (by omega), ok_bind]
    rcases pteSlot_cases ht va with ⟨hslot, hnone⟩ | ⟨pt, hpt, hslot, hne⟩
    · rw [if_pos hslot, hnone, pure_apply, userPa]
    · rw [hslot, if_neg hne, bind_apply, load_apply, ok_bind, translate_of_slot hpt]
      cases hv : hasFlag (num s.mem (pteAddr pt (px 0 va)) 8) pteV with
      | false => rw [if_pos rfl, if_neg Bool.false_ne_true, pure_apply, userPa]
      | true =>
        rw [if_neg (by decide), if_pos rfl, userPa]
        cases hu : hasFlag (num s.mem (pteAddr pt (px 0 va)) 8) pteU with
        | false => rw [if_pos rfl, if_neg Bool.false_ne_true, pure_apply]
        | true => rw [if_neg (by decide), if_pos rfl, pure_apply]

/-- The entry that `mappages` stores translates to the page and the flags it was given. -/
theorem pteFor_spec {pa perm : ℕ} (hpa : pa < 2 ^ 64) (hmod : pa % pgsize = 0)
    (hperm : perm < 2 ^ 10) :
    pte2pa (pteFor pa perm) = pa ∧ pteFlags (pteFor pa perm) = perm ||| pteV := by
  have hflags : perm ||| pteV < 2 ^ 10 := Nat.or_lt_two_pow hperm (by decide)
  rw [pteFor, Nat.or_assoc]
  exact ⟨pte2pa_or hpa hmod hflags, pteFlags_or pa hflags⟩

/-- A flag test on the entry that `mappages` stores. -/
theorem hasFlag_pteFor_or (pa : ℕ) {perm flag : ℕ} (hperm : perm < 2 ^ 10) (hflag : flag < 2 ^ 10) :
    hasFlag (pteFor pa perm) flag = hasFlag (perm ||| pteV) flag := by
  rw [pteFor, Nat.or_assoc, hasFlag_or pa (Nat.or_lt_two_pow hperm (by decide)) hflag]

/-- **Page tables refine a partial map.** On a well-formed table whose pages the allocator does
not hold: `mappages` on unmapped pages maps them all to consecutive physical pages, or fails,
and when it was to map one page it then changes no translation; `uvmunmap` removes the
translations of its range; `walk` and `walkaddr` read the map. The table stays well-formed. -/
theorem pagetable_refines_map (ht : Table s.mem root) (ho : Owns img s (tables s.mem root)) :
    (∀ va size pa perm, va % pgsize = 0 → size % pgsize = 0 → 0 < size → va + size ≤ maxva →
      pa % pgsize = 0 → pa + size ≤ 2 ^ 64 → perm < 2 ^ 10 →
      (∀ k < size / pgsize, translate s.mem root (va + k * pgsize) = none) →
      ∃ r s', mappages root va size pa perm s = .ok r s' ∧ Table s'.mem root ∧
        (r = 0 ∨ r = -1) ∧
        (r = 0 →
          (∀ k < size / pgsize, ∃ e, translate s'.mem root (va + k * pgsize) = some e ∧
            pte2pa e = pa + k * pgsize ∧ pteFlags e = perm ||| pteV) ∧
          ∀ va' < maxva, va' < va ∨ va + size ≤ va' →
            translate s'.mem root va' = translate s.mem root va') ∧
        (r = -1 → size = pgsize →
          ∀ va' < maxva, translate s'.mem root va' = translate s.mem root va')) ∧
    (∀ va npages, va % pgsize = 0 → va + npages * pgsize ≤ maxva →
      ∃ s', uvmunmap img root va npages false s = .ok () s' ∧ Table s'.mem root ∧
        ∀ va' < maxva, translate s'.mem root va' =
          if va ≤ va' ∧ va' < va + npages * pgsize then none else translate s.mem root va') ∧
    (∀ va < maxva, ∃ pte, walk root va false s = .ok pte s ∧
      (pte = 0 → translate s.mem root va = none) ∧
      (pte ≠ 0 → translate s.mem root va =
        if hasFlag (num s.mem pte 8) pteV then some (num s.mem pte 8) else none)) ∧
    (∀ va, walkaddr root va s =
      .ok (if va ≥ maxva then 0 else userPa (translate s.mem root va)) s) := by
  have hmaxva : maxva < 2 ^ 39 := by decide
  have hpos : 0 < pgsize := by decide
  refine ⟨?_, ?_, ?_, walkaddr_eq ht⟩
  · intro va size pa perm hva hsize hsizepos hend hpamod hpa hperm hfree
    have hruns : Runs (fun _ => False) (mappages root va size pa perm) s _ :=
      mappages_runs ht ho hva hsize hsizepos hend (lt_trans hperm (by decide)) (by omega) hfree
    obtain ⟨r, s', heq, hpost⟩ := hruns.returns
    refine ⟨r, s', heq, ?_⟩
    -- Inside the range the page numbers are those of the addresses.
    have hrange : ∀ va', (va / pgsize ≤ va' / pgsize ∧ va' / pgsize < va / pgsize + size / pgsize) ↔
        (va ≤ va' ∧ va' < va + size) := by
      intro va'
      simp only [pgsize] at *
      omega
    rcases hpost with ⟨rfl, h⟩ | ⟨rfl, m, hm, h⟩
    · refine ⟨h.table, .inl rfl, fun _ => ⟨fun k hk => ?_, fun va' hva' hout => ?_⟩, fun h => ?_⟩
      · have hk' : k * pgsize + pgsize ≤ size := by
          simp only [pgsize] at *
          omega
        have hpage : (va + k * pgsize) / pgsize - va / pgsize = k := by
          rw [Nat.add_mul_div_right _ _ hpos, Nat.add_sub_cancel_left]
        obtain ⟨h1, h2⟩ := @pteFor_spec (pa + k * pgsize) perm (by omega)
          (by rw [Nat.add_mul_mod_self_right, hpamod]) hperm
        refine ⟨_, ?_, h1, h2⟩
        rw [h.map _ (by omega), mapRange, if_pos ((hrange _).mpr (by omega)), hpage,
          Nat.mod_eq_of_lt (by omega)]
      · rw [h.map va' (by omega), mapRange, if_neg (by rw [hrange]; omega)]
      · cases h
    · refine ⟨h.table, .inr rfl, fun h => (by cases h), fun _ hone va' hva' => ?_⟩
      have hm0 : m = 0 := by
        rw [hone, Nat.div_self hpos] at hm
        omega
      rw [h.map va' (by omega), mapRange, if_neg (by omega)]
  · intro va npages hva hend
    have hruns := unmapFrom_runs (E := fun _ => False) ht ho hend
    rw [← uvmunmap_eq false hva hend] at hruns
    obtain ⟨_, s', heq, h⟩ := hruns.returns
    refine ⟨s', heq, h.table, fun va' hva' => ?_⟩
    rw [h.map va' (by omega), unmapRange]
    have hiff : (va / pgsize ≤ va' / pgsize ∧ va' / pgsize < va / pgsize + npages) ↔
        (va ≤ va' ∧ va' < va + npages * pgsize) := by
      simp only [pgsize] at *
      omega
    simp only [hiff]
  · intro va hva
    refine ⟨_, walk_false s hva, ?_⟩
    rcases pteSlot_cases ht va with ⟨hslot, hnone⟩ | ⟨pt, hpt, hslot, hne⟩
    · exact ⟨fun _ => hnone, fun h => absurd hslot h⟩
    · rw [hslot]
      exact ⟨fun h => absurd h hne, fun _ => translate_of_slot hpt⟩

/-! ## A small machine -/

/-- A kernel of one page, which is its trampoline. -/
def tinyImage : KernelImage where
  kend := kernbase + pgsize
  trampoline := kernbase
  trampoline_mod := by decide
  trampoline_lt := by decide
  kernbase_le := le_rfl

/-- Zeroed memory with two free pages. -/
def tinyVm : Vm where
  mem := fun _ => 0
  freelist := [kernbase + 2 * pgsize, kernbase + 3 * pgsize]
  deny := fun _ => false
  calls := 0

/-- The page of an empty page table. -/
def tinyRoot : ℕ := kernbase + pgsize

theorem tinyVm_empty : Table tinyVm.mem tinyRoot ∧ tables tinyVm.mem tinyRoot = {tinyRoot} ∧
    ∀ va, translate tinyVm.mem tinyRoot va = none :=
  empty_table (fun _ _ => rfl) (by decide) (by decide)

theorem tinyVm_owns : Owns tinyImage tinyVm (tables tinyVm.mem tinyRoot) := by
  refine ⟨by decide, ?_, ?_, ?_⟩
  · intro a ha
    simp only [tinyVm, List.mem_cons, List.not_mem_nil, or_false] at ha
    rcases ha with rfl | rfl
    · exact ⟨by decide, by decide, by decide⟩
    · exact ⟨by decide, by decide, by decide⟩
  · rw [tinyVm_empty.2.1]
    rintro a rfl
    decide
  · rw [tinyVm_empty.2.1]
    rintro a rfl
    decide

/-- The result of a run that ends. -/
def resultOf {α : Type} (default : α) : Outcome Vm α → α
  | .ok a _ => a
  | _ => default

/-- Mapping the first page of an empty table takes the two free pages and succeeds. -/
theorem tinyVm_mappages (pa : ℕ) :
    resultOf 5 (mappages tinyRoot 0 pgsize pa pteR tinyVm) = 0 := rfl

/-- The first page of the small machine is mapped to the page behind the kernel. -/
theorem tinyVm_refines_map :
    ∃ s' e, mappages tinyRoot 0 pgsize tinyRoot pteR tinyVm = .ok 0 s' ∧
      translate s'.mem tinyRoot 0 = some e ∧ pte2pa e = tinyRoot ∧ pteFlags e = pteR ||| pteV := by
  obtain ⟨hmap, -⟩ := pagetable_refines_map tinyVm_empty.1 tinyVm_owns
  obtain ⟨r, s', heq, -, -, hok, -⟩ := hmap 0 pgsize tinyRoot pteR (by decide) (by decide)
    (by decide) (by decide) (by decide) (by decide) (by decide) fun k _ => tinyVm_empty.2.2 _
  have hr : r = 0 := by
    have := tinyVm_mappages tinyRoot
    rwa [heq] at this
  obtain ⟨e, he, hpa, hflags⟩ := (hok hr).1 0 (by decide)
  exact ⟨s', e, by rw [heq, hr], he, hpa, hflags⟩

/-- A physical address that is not the start of a page is rounded down: after `mappages` has
returned 0 for it, the page does not translate to it. -/
theorem tinyVm_unaligned_pa :
    Table tinyVm.mem tinyRoot ∧ Owns tinyImage tinyVm (tables tinyVm.mem tinyRoot) ∧
      translate tinyVm.mem tinyRoot 0 = none ∧
      ∃ s' e, mappages tinyRoot 0 pgsize 1 pteR tinyVm = .ok 0 s' ∧
        translate s'.mem tinyRoot 0 = some e ∧ pte2pa e ≠ 1 := by
  refine ⟨tinyVm_empty.1, tinyVm_owns, tinyVm_empty.2.2 0, ?_⟩
  have hruns : Runs (fun _ => False) (mappages tinyRoot 0 pgsize 1 pteR) tinyVm _ :=
    mappages_runs tinyVm_empty.1 tinyVm_owns (by decide) (by decide) (by decide) (by decide)
      (by decide) (by decide) fun k _ => tinyVm_empty.2.2 _
  obtain ⟨r, s', heq, hpost⟩ := hruns.returns
  have hr := tinyVm_mappages 1
  rw [heq] at hr
  rcases hpost with ⟨rfl, h⟩ | ⟨rfl, -⟩
  · refine ⟨s', _, heq, h.map 0 (by decide), ?_⟩
    decide
  · cases hr

end RiscvKernel
