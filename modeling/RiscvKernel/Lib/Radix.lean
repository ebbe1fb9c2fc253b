import Mathlib.Data.List.Induction
import Mathlib.Data.Set.Basic

/-!
# Radix trees given by a child function

A radix tree of bounded depth is a root and a partial function that sends a node and an
index to a child. Nothing says that the children of different nodes are different: that
each node is reached by exactly one path is the property `Tree`, and the lemmas say which
updates of the child function keep it.
-/

namespace Radix

variable {N I : Type} {child child' : N → I → Option N} {a b c : N} {d : ℕ}

/-- The node at the end of a path. -/
def descend (child : N → I → Option N) : N → List I → Option N
  | a, [] => some a
  | a, i :: p => (child a i).bind fun b => descend child b p

@[simp] theorem descend_nil : descend child a [] = some a := rfl

theorem descend_cons {i : I} {p : List I} :
    descend child a (i :: p) = (child a i).bind fun b => descend child b p := rfl

/-- Two descents in a row. -/
theorem descend_append {p q : List I} :
    descend child a (p ++ q) = (descend child a p).bind fun b => descend child b q := by
  induction p generalizing a with
  | nil => rfl
  | cons i p ih =>
    rw [List.cons_append, descend_cons, descend_cons]
    cases child a i with
    | none => rfl
    | some b => exact ih

/-- The last step of a path. -/
theorem descend_snoc {p : List I} {i : I} :
    descend child a (p ++ [i]) = (descend child a p).bind fun b => child b i := by
  rw [descend_append]
  congr 1
  funext b
  simp [descend]

/-- The nodes within `d` steps. -/
def nodes (child : N → I → Option N) (d : ℕ) (a : N) : Set N :=
  {b | ∃ p : List I, p.length ≤ d ∧ descend child a p = some b}

/-- Each node within `d` steps is reached by exactly one path. -/
def Tree (child : N → I → Option N) (d : ℕ) (a : N) : Prop :=
  ∀ (p q : List I) (b : N), p.length ≤ d → q.length ≤ d → descend child a p = some b →
    descend child a q = some b → p = q

theorem root_mem_nodes : a ∈ nodes child d a := ⟨[], Nat.zero_le d, rfl⟩

/-- The nodes below a child are nodes of the tree. -/
theorem nodes_child {i : I} (hc : child a i = some c) (hb : b ∈ nodes child d c) :
    b ∈ nodes child (d + 1) a := by
  obtain ⟨p, hp, hdesc⟩ := hb
  refine ⟨i :: p, Nat.succ_le_succ hp, ?_⟩
  rw [descend_cons, hc]
  exact hdesc

/-- A node of a tree is the root or below one of its children. -/
theorem mem_nodes_succ :
    b ∈ nodes child (d + 1) a ↔ b = a ∨ ∃ i c, child a i = some c ∧ b ∈ nodes child d c := by
  constructor
  · rintro ⟨p, hp, hdesc⟩
    cases p with
    | nil => exact .inl (Option.some.inj hdesc).symm
    | cons i p =>
      rw [descend_cons, Option.bind_eq_some_iff] at hdesc
      obtain ⟨c, hc, hdesc⟩ := hdesc
      exact .inr ⟨i, c, hc, p, Nat.le_of_succ_le_succ hp, hdesc⟩
  · rintro (rfl | ⟨i, c, hc, hb⟩)
    · exact root_mem_nodes
    · exact nodes_child hc hb

theorem nodes_zero : nodes child 0 a = {a} := by
  ext b
  constructor
  · rintro ⟨p, hp, hdesc⟩
    rw [List.length_eq_zero_iff.mp (Nat.le_zero.mp hp)] at hdesc
    exact (Option.some.inj hdesc).symm
  · rintro rfl
    exact root_mem_nodes

/-- A path only looks at the nodes before its end. -/
theorem descend_congr {p : List I} (hp : p.length ≤ d + 1)
    (h : ∀ b ∈ nodes child d a, child' b = child b) : descend child' a p = descend child a p := by
  induction p generalizing a d with
  | nil => rfl
  | cons i p ih =>
    rw [descend_cons, descend_cons, h a root_mem_nodes]
    cases hc : child a i with
    | none => rfl
    | some c =>
      cases p with
      | nil => rfl
      | cons j p =>
        obtain ⟨d, rfl⟩ : ∃ e, d = e + 1 := ⟨d - 1, by simp at hp; omega⟩
        exact ih (by simpa using hp) fun b hb => h b (nodes_child hc hb)

/-- The nodes are the same when the inner nodes have the same children. -/
theorem nodes_congr (h : ∀ b ∈ nodes child d a, child' b = child b) :
    nodes child' (d + 1) a = nodes child (d + 1) a := by
  ext b
  constructor
  · rintro ⟨p, hp, hdesc⟩
    exact ⟨p, hp, (descend_congr hp h).symm.trans hdesc⟩
  · rintro ⟨p, hp, hdesc⟩
    exact ⟨p, hp, (descend_congr hp h).trans hdesc⟩

/-- The nodes are the same when they all have the same children. -/
theorem nodes_congr_self (h : ∀ b ∈ nodes child d a, child' b = child b) :
    nodes child' d a = nodes child d a := by
  ext b
  constructor
  · rintro ⟨p, hp, hdesc⟩
    exact ⟨p, hp, (descend_congr (by omega) h).symm.trans hdesc⟩
  · rintro ⟨p, hp, hdesc⟩
    exact ⟨p, hp, (descend_congr (by omega) h).trans hdesc⟩

namespace Tree

/-- The same children. -/
theorem congr_self (ht : Tree child d a) (h : ∀ b ∈ nodes child d a, child' b = child b) :
    Tree child' d a := by
  intro p q b hp hq hbp hbq
  rw [descend_congr (by omega) h] at hbp hbq
  exact ht p q b hp hq hbp hbq

/-- The same children above the leaves. -/
theorem congr (ht : Tree child (d + 1) a) (h : ∀ b ∈ nodes child d a, child' b = child b) :
    Tree child' (d + 1) a := by
  intro p q b hp hq hbp hbq
  rw [descend_congr hp h] at hbp
  rw [descend_congr hq h] at hbq
  exact ht p q b hp hq hbp hbq

/-- The tree below a child. -/
theorem below {child : N → I → Option N} {i : I} (ht : Tree child (d + 1) a)
    (hc : child a i = some c) : Tree child d c := by
  intro p q b hp hq hbp hbq
  have h := ht (i :: p) (i :: q) b (Nat.succ_le_succ hp) (Nat.succ_le_succ hq)
    (by rw [descend_cons, hc]; exact hbp) (by rw [descend_cons, hc]; exact hbq)
  exact (List.cons.inj h).2

/-- The root is not below its children. -/
theorem root_notMem {child : N → I → Option N} {i : I} (ht : Tree child (d + 1) a)
    (hc : child a i = some c) : a ∉ nodes child d c := by
  rintro ⟨p, hp, hdesc⟩
  have h := ht [] (i :: p) a (Nat.zero_le _) (Nat.succ_le_succ hp) rfl
    (by rw [descend_cons, hc]; exact hdesc)
  cases h

/-- The trees below two children have no node in common. -/
theorem disjoint {child : N → I → Option N} {i j : I} {e : N} (ht : Tree child (d + 1) a)
    (hc : child a i = some c) (he : child a j = some e) (hbc : b ∈ nodes child d c)
    (hbe : b ∈ nodes child d e) : i = j := by
  obtain ⟨p, hp, hbp⟩ := hbc
  obtain ⟨q, hq, hbq⟩ := hbe
  have h := ht (i :: p) (j :: q) b (Nat.succ_le_succ hp) (Nat.succ_le_succ hq)
    (by rw [descend_cons, hc]; exact hbp) (by rw [descend_cons, he]; exact hbq)
  exact (List.cons.inj h).1

end Tree

section Graft

variable [DecidableEq I] {root : N} {p : List I} {i : I}

/-- A node `c` without children is hung below index `i` of the node `a` at the end of `p`. -/
structure Graft (child child' : N → I → Option N) (d : ℕ) (root a : N) (p : List I) (i : I)
    (c : N) : Prop where
  /-- The new node is within reach. -/
  depth : p.length ≤ d
  /-- The node that it is hung below. -/
  parent : descend child root p = some a
  /-- The place was free. -/
  free : child a i = none
  /-- The node is new. -/
  fresh : c ∉ nodes child (d + 1) root
  /-- The other children of the parent stay. -/
  hung : ∀ j, child' a j = if j = i then some c else child a j
  /-- The new node has no children. -/
  bare : ∀ j, child' c j = none
  /-- The other nodes stay. -/
  rest : ∀ b ∈ nodes child d root, b ≠ a → child' b = child b

/-- A graft adds one path. -/
theorem Graft.descend (hg : Graft child child' d root a p i c) (ht : Tree child (d + 1) root)
    {q : List I} (hq : q.length ≤ d + 1) :
    descend child' root q = if q = p ++ [i] then some c else Radix.descend child root q := by
  have hdepth := hg.depth
  induction q using List.reverseRecOn with
  | nil => rw [if_neg (by simp)]; rfl
  | append_singleton q j ih =>
    have hqd : q.length ≤ d := by simpa using hq
    rw [descend_snoc, ih (by omega), descend_snoc]
    by_cases hqp : q = p ++ [i]
    · -- The new node has no children, and nothing was below index `i` before.
      subst hqp
      have hne : ¬ (p ++ [i] ++ [j] = p ++ [i]) := by simp
      rw [if_pos rfl, if_neg hne, descend_snoc, hg.parent]
      simp [hg.bare, hg.free]
    · rw [if_neg hqp]
      cases hb : Radix.descend child root q with
      | none =>
        have hne : ¬ (q ++ [j] = p ++ [i]) := by
          intro h
          rw [(List.append_inj' h rfl).1, hg.parent] at hb
          cases hb
        rw [if_neg hne]
        rfl
      | some b =>
        simp only [Option.bind_some]
        by_cases hba : b = a
        · subst hba
          have hqeq : q = p := ht q p b (by omega) (by omega) hb hg.parent
          subst hqeq
          rw [hg.hung]
          simp
        · have hne : ¬ (q ++ [j] = p ++ [i]) := by
            intro h
            rw [(List.append_inj' h rfl).1, hg.parent] at hb
            exact hba (Option.some.inj hb).symm
          rw [if_neg hne, hg.rest b ⟨q, hqd, hb⟩ hba]

/-- A graft keeps the tree. -/
theorem Graft.tree (hg : Graft child child' d root a p i c) (ht : Tree child (d + 1) root) :
    Tree child' (d + 1) root := by
  intro q r b hq hr hbq hbr
  rw [hg.descend ht hq] at hbq
  rw [hg.descend ht hr] at hbr
  by_cases hqp : q = p ++ [i] <;> by_cases hrp : r = p ++ [i]
  · rw [hqp, hrp]
  · rw [if_pos hqp] at hbq
    rw [if_neg hrp, ← Option.some.inj hbq] at hbr
    exact absurd ⟨r, hr, hbr⟩ hg.fresh
  · rw [if_pos hrp] at hbr
    rw [if_neg hqp, ← Option.some.inj hbr] at hbq
    exact absurd ⟨q, hq, hbq⟩ hg.fresh
  · rw [if_neg hqp] at hbq
    rw [if_neg hrp] at hbr
    exact ht q r b hq hr hbq hbr

/-- A graft adds the new node to the nodes. -/
theorem Graft.nodes (hg : Graft child child' d root a p i c) (ht : Tree child (d + 1) root) :
    nodes child' (d + 1) root = insert c (Radix.nodes child (d + 1) root) := by
  ext b
  have hlen : (p ++ [i]).length ≤ d + 1 := by simpa using hg.depth
  constructor
  · rintro ⟨q, hq, hbq⟩
    rw [hg.descend ht hq] at hbq
    split at hbq
    · exact .inl (Option.some.inj hbq).symm
    · exact .inr ⟨q, hq, hbq⟩
  · rintro (rfl | ⟨q, hq, hbq⟩)
    · refine ⟨p ++ [i], hlen, ?_⟩
      rw [hg.descend ht hlen, if_pos rfl]
    · refine ⟨q, hq, ?_⟩
      rw [hg.descend ht hq, if_neg, hbq]
      rintro rfl
      rw [descend_snoc, hg.parent] at hbq
      simp [hg.free] at hbq

end Graft

end Radix
