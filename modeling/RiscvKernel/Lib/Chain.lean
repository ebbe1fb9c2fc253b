import Mathlib.Data.List.Nodup
import Mathlib.Data.Option.Basic
import Mathlib.Logic.Function.Basic

/-!
# Linked lists in memory

A memory of nodes is a function that gives each node its successor. A list of nodes lies in the
memory if the successors lead through it. A ring is linked in both directions and has a sentinel,
which is written `none`.
-/

namespace Chain

open Function
open List (cons_ne_nil getLast_cons getLast_mem map_append map_cons mem_append mem_cons
  mem_cons_of_mem mem_cons_self mem_singleton nodup_cons)

variable {α : Type*} {next next' : α → α} {a b c x y : α} {l l' : List α}

/-- The successors lead from `a` through the nodes `l` to `b`. -/
def Leads (next : α → α) : α → List α → α → Prop
  | a, [], b => next a = b
  | a, c :: l, b => next a = c ∧ Leads next c l b

/-- A list that is cut at a node. -/
theorem leads_append : Leads next a (l ++ c :: l') b ↔ Leads next a l c ∧ Leads next c l' b := by
  induction l generalizing a with
  | nil => exact Iff.rfl
  | cons d l ih =>
    constructor
    · rintro ⟨hd, h⟩
      obtain ⟨h1, h2⟩ := ih.mp h
      exact ⟨⟨hd, h1⟩, h2⟩
    · rintro ⟨⟨hd, h1⟩, h2⟩
      exact ⟨hd, ih.mpr ⟨h1, h2⟩⟩

/-- Another node is put before the list. -/
theorem Leads.relink (h : Leads next a l b) (hc : next' c = next a)
    (heq : ∀ x ∈ l, next' x = next x) : Leads next' c l b := by
  induction l generalizing a c with
  | nil => exact hc.trans h
  | cons d l ih =>
    obtain ⟨hd, h⟩ := h
    refine ⟨hc.trans hd, ih h (heq d mem_cons_self) fun x hx => ?_⟩
    exact heq x (mem_cons_of_mem _ hx)

/-- Only the nodes of the list matter. -/
theorem Leads.congr (h : Leads next a l b) (heq : ∀ x ∈ a :: l, next' x = next x) :
    Leads next' a l b :=
  h.relink (heq a mem_cons_self) fun x hx => heq x (mem_cons_of_mem _ hx)

/-- The rest of the list after some nodes. -/
theorem Leads.drop (h : Leads next a (l ++ l') b) :
    Leads next ((a :: l).getLast (cons_ne_nil a l)) l' b := by
  induction l generalizing a with
  | nil => exact h
  | cons d l ih =>
    rw [getLast_cons (cons_ne_nil d l)]
    exact ih h.2

/-- The list up to one of its nodes. -/
theorem Leads.take (h : Leads next a (l ++ l') b) :
    Leads next a l (next ((a :: l).getLast (cons_ne_nil a l))) := by
  induction l generalizing a with
  | nil => exact rfl
  | cons d l ih =>
    rw [getLast_cons (cons_ne_nil d l)]
    exact ⟨h.1, ih h.2⟩

/-- The last node leads to the end. -/
theorem Leads.last (h : Leads next a l b) : next ((a :: l).getLast (cons_ne_nil a l)) = b := by
  induction l generalizing a with
  | nil => exact h
  | cons d l ih =>
    rw [getLast_cons (cons_ne_nil d l)]
    exact ih h.2

/-- The successor of a node is further on. -/
theorem Leads.next_mem (h : Leads next a l b) (hx : x ∈ a :: l) : next x ∈ l ++ [b] := by
  induction l generalizing a with
  | nil =>
    rw [mem_singleton.mp hx]
    exact mem_singleton.mpr h
  | cons d l ih =>
    obtain ⟨hd, h⟩ := h
    rcases mem_cons.mp hx with rfl | hx
    · rw [hd]
      exact mem_cons_self
    · exact mem_cons_of_mem _ (ih h hx)

/-- No two nodes have the same successor. -/
theorem Leads.injective (h : Leads next a l b) (hnodup : (l ++ [b]).Nodup) (hx : x ∈ a :: l)
    (hy : y ∈ a :: l) (heq : next x = next y) : x = y := by
  induction l generalizing a with
  | nil => rw [mem_singleton.mp hx, mem_singleton.mp hy]
  | cons d l ih =>
    obtain ⟨hd, h⟩ := h
    obtain ⟨hnew, hnodup⟩ := nodup_cons.mp hnodup
    rcases mem_cons.mp hx with rfl | hx'
    · rcases mem_cons.mp hy with rfl | hy'
      · rfl
      · rw [hd] at heq
        exact absurd (heq ▸ h.next_mem hy') hnew
    · rcases mem_cons.mp hy with rfl | hy'
      · rw [hd] at heq
        exact absurd (heq ▸ h.next_mem hx') hnew
      · exact ih h hnodup hx' hy'

/-- The last node gets another successor. -/
theorem Leads.redirect [DecidableEq α] (h : Leads next a l b) (hnodup : (a :: l).Nodup) (c : α) :
    Leads (update next ((a :: l).getLast (cons_ne_nil a l)) c) a l c := by
  induction l generalizing a with
  | nil => exact update_self _ _ _
  | cons d l ih =>
    obtain ⟨hd, h⟩ := h
    obtain ⟨hnew, hnodup⟩ := nodup_cons.mp hnodup
    have hlast : (d :: l).getLast (cons_ne_nil d l) ∈ d :: l := getLast_mem _
    rw [getLast_cons (cons_ne_nil d l)]
    refine ⟨?_, ih h hnodup⟩
    rw [update_of_ne, hd]
    rintro rfl
    exact hnew hlast

/-- A node is taken out: the one before it gets its successor. -/
theorem Leads.unlink [DecidableEq α] (h : Leads next a (l ++ c :: l') b)
    (hnodup : (a :: (l ++ c :: l')).Nodup) :
    Leads (update next ((a :: l).getLast (cons_ne_nil a l)) (next c)) a (l ++ l') b := by
  induction l generalizing a with
  | nil =>
    refine h.2.relink (update_self _ _ _) fun x hx => ?_
    refine update_of_ne ?_ _ _
    rintro rfl
    exact (nodup_cons.mp hnodup).1 (mem_cons_of_mem _ hx)
  | cons d l ih =>
    obtain ⟨hd, h⟩ := h
    obtain ⟨hnew, hnodup⟩ := nodup_cons.mp hnodup
    have hlast : (d :: l).getLast (cons_ne_nil d l) ∈ d :: l := getLast_mem _
    rw [getLast_cons (cons_ne_nil d l)]
    refine ⟨?_, ih h hnodup⟩
    rw [update_of_ne, hd]
    rintro rfl
    exact hnew (List.mem_append_left (c :: l') hlast)

/-- A ring can be entered at any of its nodes. -/
theorem Leads.rotate (h : Leads next a l a) (hx : x ∈ a :: l) :
    ∃ l', Leads next x l' x ∧ (x :: l').Perm (a :: l) := by
  rcases mem_cons.mp hx with rfl | hx
  · exact ⟨l, h, List.Perm.refl _⟩
  · obtain ⟨l1, l2, rfl⟩ := List.append_of_mem hx
    obtain ⟨h1, h2⟩ := leads_append.mp h
    have hperm : ((x :: l2) ++ (a :: l1)).Perm ((a :: l1) ++ (x :: l2)) := List.perm_append_comm
    exact ⟨l2 ++ a :: l1, leads_append.mpr ⟨h2, h1⟩, hperm⟩

/-- The pointer `p` leads through the nodes `l` to `b`. -/
def Path (next : α → α) : α → List α → α → Prop
  | p, [], b => p = b
  | p, c :: l, b => p = c ∧ Path next (next c) l b

/-- Only the nodes of the list matter. -/
theorem Path.congr (h : Path next a l b) (heq : ∀ x ∈ l, next' x = next x) : Path next' a l b := by
  induction l generalizing a with
  | nil => exact h
  | cons c l ih =>
    obtain ⟨hc, h⟩ := h
    refine ⟨hc, ?_⟩
    rw [heq c mem_cons_self]
    exact ih h fun x hx => heq x (mem_cons_of_mem _ hx)

/-! ## Rings -/

section Ring

variable {m : List α} {succ pred : Option α → Option α} {e : α}
  {test : α → Bool}

/-- The ring through the sentinel and the nodes `m`, in this order. -/
structure Ring (succ pred : Option α → Option α) (m : List α) : Prop where
  leads : Leads succ none (m.map some) none
  inverse : ∀ x ∈ none :: m.map some, pred (succ x) = x
  nodup : m.Nodup

/-- Successors are on the ring. -/
theorem Ring.mem_succ (h : Ring succ pred m) {x : Option α} (hx : x ∈ none :: m.map some) :
    succ x ∈ none :: m.map some := by
  have := h.leads.next_mem hx
  rw [mem_append, mem_singleton] at this
  rw [mem_cons]
  exact this.symm

/-- Each node has one predecessor. -/
theorem Ring.injective (h : Ring succ pred m) {x y : Option α} (hx : x ∈ none :: m.map some)
    (hy : y ∈ none :: m.map some) (heq : succ x = succ y) : x = y := by
  rw [← h.inverse x hx, ← h.inverse y hy, heq]

theorem some_mem_nodes : some e ∈ none :: m.map some ↔ e ∈ m := by simp

/-- A sentinel alone. -/
theorem Ring.nil (hs : succ none = none) (hp : pred none = none) : Ring succ pred [] := by
  refine ⟨hs, fun x hx => ?_, List.nodup_nil⟩
  rw [mem_singleton.mp hx, hs, hp]

/-- A node is put behind the sentinel. -/
theorem Ring.push [DecidableEq α] (h : Ring succ pred m) (he : e ∉ m) :
    Ring (update (update succ (some e) (succ none)) none (some e))
      (update (update pred (some e) none) (succ none) (some e)) (e :: m) := by
  have hnew : ∀ x ∈ none :: m.map some, x ≠ some e := by
    rintro x hx rfl
    exact he (some_mem_nodes.mp hx)
  have hnone : (none : Option α) ∈ none :: m.map some := mem_cons_self
  have hfirst := hnew _ (h.mem_succ hnone)
  have hself : update (update succ (some e) (succ none)) none (some e) (some e) =
      succ none := by
    rw [update_of_ne (Option.some_ne_none e), update_self]
  have hother : ∀ c ∈ m, update (update succ (some e) (succ none)) none (some e)
      (some c) = succ (some c) := by
    intro c hc
    rw [update_of_ne (Option.some_ne_none c),
      update_of_ne (hnew _ (some_mem_nodes.mpr hc))]
  refine ⟨⟨update_self _ _ _, h.leads.relink hself ?_⟩, ?_, nodup_cons.mpr ⟨he, h.nodup⟩⟩
  · intro x hx
    obtain ⟨c, hc, rfl⟩ := List.mem_map.mp hx
    exact hother c hc
  · intro x hx
    cases x with
    | none =>
      rw [update_self, update_of_ne (Ne.symm hfirst), update_self]
    | some c =>
      rcases mem_cons.mp (some_mem_nodes.mp hx) with rfl | hc
      · rw [hself, update_self]
      · have hc' : some c ∈ none :: m.map some := some_mem_nodes.mpr hc
        have hne : succ (some c) ≠ succ none := fun heq =>
          Option.some_ne_none c (h.injective hc' hnone heq)
        rw [hother c hc, update_of_ne hne, update_of_ne (hnew _ (h.mem_succ hc')),
          h.inverse _ hc']

/-- A node is taken out. -/
theorem Ring.unlink [DecidableEq α] (h : Ring succ pred m) (he : e ∈ m) :
    Ring (update succ (pred (some e)) (succ (some e)))
      (update pred (succ (some e)) (pred (some e))) (m.erase e) ∧
      succ (some e) ≠ some e := by
  obtain ⟨m1, m2, rfl⟩ := List.append_of_mem he
  have hmem : some e ∈ none :: (m1 ++ e :: m2).map some := some_mem_nodes.mpr he
  have hnodes : (none :: (m1.map some ++ some e :: m2.map some)).Nodup := by
    have := List.Nodup.map (Option.some_injective α) h.nodup
    rw [map_append, map_cons] at this
    exact nodup_cons.mpr ⟨by simp, this⟩
  have hnotin : e ∉ m1 := by
    intro hin
    exact (List.nodup_append.mp h.nodup).2.2 e hin e mem_cons_self rfl
  have hleads := h.leads
  rw [map_append, map_cons] at hleads
  -- The node before is the one that `pred` gives.
  have hbefore := (leads_append.mp hleads).1.last
  set p := (none :: m1.map some).getLast (cons_ne_nil none (m1.map some)) with hp
  have hpmem : p ∈ none :: m1.map some := getLast_mem _
  have hpmem' : p ∈ none :: (m1 ++ e :: m2).map some := by
    rw [map_append]
    exact List.mem_append_left _ hpmem
  have hpred : pred (some e) = p := by rw [← hbefore, h.inverse p hpmem']
  have hne : p ≠ some e := by
    intro heq
    rw [heq] at hpmem
    exact hnotin (some_mem_nodes.mp hpmem)
  have herase : (m1 ++ e :: m2).erase e = m1 ++ m2 := by
    rw [List.erase_append_right _ hnotin, List.erase_cons_head]
  have hsub : ∀ x ∈ none :: (m1 ++ m2).map some,
      x ∈ none :: (m1 ++ e :: m2).map some ∧ x ≠ some e := by
    intro x hx
    cases x with
    | none => exact ⟨mem_cons_self, nofun⟩
    | some c =>
      have hc := some_mem_nodes.mp hx
      refine ⟨some_mem_nodes.mpr ?_, ?_⟩
      · rcases mem_append.mp hc with hc | hc
        · exact List.mem_append_left _ hc
        · exact List.mem_append_right _ (mem_cons_of_mem _ hc)
      · rintro heq
        cases heq
        rcases mem_append.mp hc with hc | hc
        · exact hnotin hc
        · exact (nodup_cons.mp (List.nodup_append.mp h.nodup).2.1).1 hc
  rw [hpred, herase]
  refine ⟨⟨?_, ?_, ?_⟩, ?_⟩
  · rw [map_append]
    exact hleads.unlink hnodes
  · intro x hx
    obtain ⟨hx', hxe⟩ := hsub x hx
    by_cases hxp : x = p
    · rw [hxp, update_self, update_self]
    · have hnext : succ x ≠ succ (some e) := fun heq => hxe (h.injective hx' hmem heq)
      rw [update_of_ne hxp, update_of_ne hnext, h.inverse x hx']
  · rw [← herase]
    exact h.nodup.erase e
  · intro hself
    exact hne (h.injective hpmem' hmem (hbefore.trans hself.symm))

/-- Backwards the ring has the nodes in reverse. -/
theorem Ring.back (h : Ring succ pred m) : Leads pred none (m.reverse.map some) none := by
  have hback : ∀ (l : List (Option α)) (a b : Option α), Leads succ a l b →
      (∀ x ∈ a :: l, pred (succ x) = x) → Leads pred b l.reverse a := by
    intro l
    induction l with
    | nil =>
      intro a b hl hinv
      rw [List.reverse_nil]
      change pred b = a
      rw [← hinv a mem_cons_self, show succ a = b from hl]
    | cons c l ih =>
      rintro a b ⟨hc, hl⟩ hinv
      rw [List.reverse_cons]
      refine leads_append.mpr ⟨ih c b hl fun x hx => hinv x (mem_cons_of_mem a hx), ?_⟩
      change pred c = a
      rw [← hc, hinv a mem_cons_self]
  rw [List.map_reverse]
  exact hback _ _ _ h.leads h.inverse

/-- Walk along a ring to the first node that passes a test. There is no result without enough
fuel; reaching the sentinel is `some none`. -/
def walk (step : Option α → Option α) (test : α → Bool) : ℕ → Option α → Option (Option α)
  | 0, _ => none
  | _ + 1, none => some none
  | fuel + 1, some e => if test e then some (some e) else walk step test fuel (step (some e))

/-- A walk finds what a search through the list finds. -/
theorem walk_eq {step : Option α → Option α} {a : Option α} {fuel : ℕ}
    (h : Leads step a (m.map some) none) (hfuel : m.length < fuel) :
    walk step test fuel (step a) = some (m.find? test) := by
  induction m generalizing a fuel with
  | nil =>
    obtain ⟨fuel, rfl⟩ : ∃ f, fuel = f + 1 := ⟨fuel - 1, by simp at hfuel; omega⟩
    rw [show step a = none from h]
    rfl
  | cons c m ih =>
    obtain ⟨fuel, rfl⟩ : ∃ f, fuel = f + 1 := ⟨fuel - 1, by simp at hfuel; omega⟩
    obtain ⟨hc, h⟩ := h
    rw [hc, walk, List.find?_cons]
    cases test c with
    | true => rfl
    | false => exact ih h (by simpa using hfuel)

end Ring

end Chain
