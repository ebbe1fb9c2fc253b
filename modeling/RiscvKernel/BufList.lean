import Mathlib.Data.Fintype.Option
import Mathlib.Logic.Relation
import RiscvKernel.Lib.Chain
import RiscvKernel.Lib.Seq
import RiscvKernel.LogCrash

/-!
# The list of buffers

The critical sections of `bio.c` with the list through `next` and `prev`, which has `bcache.head`
as its sentinel. Along every history the list is a ring through all buffers, in which the unused
buffers are ordered by the time they became unused; `bget` recycles the one that has been unused
for the longest time. `RiscvKernel.Bio` has the same sections with a list of indices.

The sleep-locks are left out: that only the holder of a buffer releases it is part of the
histories.
-/

namespace RiscvKernel

open Threads Function
open List (finRange mem_cons mem_cons_self mem_filter mem_reverse)

/-- `bcache`. A pointer to a buffer is its index, a pointer to `head` is `none`. -/
structure Bcache where
  next : Option BufId → Option BufId
  prev : Option BufId → Option BufId
  dev : BufId → ℕ
  blockno : BufId → ℕ
  valid : BufId → Bool
  /-- An unsigned counter of 32 bits. -/
  refcnt : BufId → ℕ

namespace Bcache

/-! ## The sections -/

/-- Put a buffer behind `head`, as `binit` and `brelse` do. -/
def pushFront (c : Bcache) (b : BufId) : Bcache :=
  let c := { c with next := update c.next (some b) (c.next none) }
  let c := { c with prev := update c.prev (some b) none }
  let c := { c with prev := update c.prev (c.next none) (some b) }
  { c with next := update c.next none (some b) }

/-- Take a buffer out of the list, as `brelse` does. -/
def unlink (c : Bcache) (b : BufId) : Bcache :=
  let c := { c with prev := update c.prev (c.next (some b)) (c.prev (some b)) }
  { c with next := update c.next (c.prev (some b)) (c.next (some b)) }

/-- `binit`. -/
def binit (c : Bcache) : Bcache :=
  let c := { c with prev := update c.prev none none }
  let c := { c with next := update c.next none none }
  (finRange nbuf).foldl pushFront c

/-- Store a reference count. -/
def setRef (c : Bcache) (b : BufId) (n : ℕ) : Bcache :=
  { c with refcnt := update c.refcnt b (n % 2 ^ 32) }

/-- The buffer caches the block. -/
def caches (c : Bcache) (dev blockno : ℕ) (b : BufId) : Bool :=
  c.dev b == dev && c.blockno b == blockno

/-- Give a buffer to another block. -/
def recycle (c : Bcache) (dev blockno : ℕ) (b : BufId) : Bcache :=
  { c with
    dev := update c.dev b dev
    blockno := update c.blockno b blockno
    valid := update c.valid b false
    refcnt := update c.refcnt b 1 }

/-- The critical section of `bget`. -/
def bget (dev blockno : ℕ) : Seq Bcache BufId := fun c =>
  match Chain.walk c.next (c.caches dev blockno) (nbuf + 1) (c.next none) with
  | none => .stuck c
  | some (some b) => .ok b (c.setRef b (c.refcnt b + 1))
  | some none =>
    match Chain.walk c.prev (fun b => c.refcnt b == 0) (nbuf + 1) (c.prev none) with
    | none => .stuck c
    | some (some b) => .ok b (c.recycle dev blockno b)
    | some none => .panic "bget: no buffers" c

/-- The critical section of `brelse`. -/
def brelse (c : Bcache) (b : BufId) : Bcache :=
  let c := c.setRef b (c.refcnt b + (2 ^ 32 - 1))
  if c.refcnt b = 0 then (c.unlink b).pushFront b else c

/-- `bpin`. -/
def bpin (c : Bcache) (b : BufId) : Bcache := c.setRef b (c.refcnt b + 1)

/-- `bunpin`. -/
def bunpin (c : Bcache) (b : BufId) : Bcache := c.setRef b (c.refcnt b + (2 ^ 32 - 1))

/-! ## Histories -/

/-- The cache with its history. -/
structure Sys where
  c : Bcache
  /-- The calls of `bget` for a buffer without their `brelse`. -/
  users : BufId → ℕ
  /-- The calls of `bpin` for a buffer without their `bunpin`. -/
  pins : BufId → ℕ
  /-- The time. -/
  clock : ℕ
  /-- When the reference count of a buffer last became 0. -/
  stamp : BufId → ℕ

/-- One call has been made. -/
def Sys.tick (s : Sys) (c : Bcache) (users pins : BufId → ℕ) : Sys where
  c := c
  users := users
  pins := pins
  clock := s.clock + 1
  stamp := fun b => if s.c.refcnt b ≠ 0 ∧ c.refcnt b = 0 then s.clock else s.stamp b

/-- One more of a count. -/
def add (f : BufId → ℕ) (b : BufId) : BufId → ℕ := update f b (f b + 1)

/-- One less of a count. -/
def sub (f : BufId → ℕ) (b : BufId) : BufId → ℕ := update f b (f b - 1)

/-- The calls: `brelse` by a holder of the buffer, `bunpin` for a pinned buffer that is also held.
There are fewer than `2 ^ 32` references to a buffer. -/
inductive Step : Sys → Sys → Prop
  | bget {s : Sys} {dev blockno : ℕ} {b : BufId} {c : Bcache}
    (h : bget dev blockno s.c = .ok b c) (hb : s.users b + s.pins b + 1 < 2 ^ 32) :
    Step s (s.tick c (add s.users b) s.pins)
  | brelse {s : Sys} {b : BufId} (hb : 0 < s.users b) :
    Step s (s.tick (s.c.brelse b) (sub s.users b) s.pins)
  | bpin {s : Sys} {b : BufId} (hb : s.users b + s.pins b + 1 < 2 ^ 32) :
    Step s (s.tick (s.c.bpin b) s.users (add s.pins b))
  | bunpin {s : Sys} {b : BufId} (hb : 0 < s.users b) (hpin : 0 < s.pins b) :
    Step s (s.tick (s.c.bunpin b) s.users (sub s.pins b))

/-- The state after `binit`. It put the buffers into the list one by one. -/
def Sys.init (c : Bcache) : Sys := ⟨c.binit, fun _ => 0, fun _ => 0, nbuf, fun b => b⟩

/-- The states after `binit` and any sequence of calls. -/
def Reachable (s : Sys) : Prop :=
  ∃ c : Bcache, c.refcnt = (fun _ => 0) ∧ Relation.ReflTransGen Step (Sys.init c) s

/-! ## The list -/

section Pointers

variable {c : Bcache} {b : BufId} {l : List BufId} {dev blockno : ℕ}

/-- A buffer is put in front. -/
theorem pushFront_ring (h : Chain.Ring c.next c.prev l) (hb : b ∉ l) :
    Chain.Ring (c.pushFront b).next (c.pushFront b).prev (b :: l) := by
  have hnone : update c.next (some b) (c.next none) none = c.next none :=
    update_of_ne (Option.some_ne_none b).symm _ _
  have hring := h.push hb
  unfold pushFront
  dsimp only
  rw [hnone]
  exact hring

/-- A buffer is taken out. -/
theorem unlink_ring (h : Chain.Ring c.next c.prev l) (hb : b ∈ l) :
    Chain.Ring (c.unlink b).next (c.unlink b).prev (l.erase b) := by
  obtain ⟨hring, hne⟩ := h.unlink hb
  have hprev : update c.prev (c.next (some b)) (c.prev (some b)) (some b) =
      c.prev (some b) :=
    update_of_ne hne.symm _ _
  unfold unlink
  dsimp only
  rw [hprev]
  exact hring

/-- `binit` links all buffers, the last one in front. -/
theorem binit_ring (c : Bcache) :
    Chain.Ring c.binit.next c.binit.prev (finRange nbuf).reverse ∧
      c.binit.refcnt = c.refcnt := by
  have hfold : ∀ (l m : List BufId) (c : Bcache), Chain.Ring c.next c.prev m →
      (l.reverse ++ m).Nodup → Chain.Ring (l.foldl pushFront c).next (l.foldl pushFront c).prev
        (l.reverse ++ m) ∧ (l.foldl pushFront c).refcnt = c.refcnt := by
    intro l
    induction l with
    | nil =>
      intro m c hring _
      exact ⟨hring, rfl⟩
    | cons b l ih =>
      intro m c hring hnodup
      rw [List.reverse_cons, List.append_assoc, List.singleton_append] at hnodup ⊢
      have hb : b ∉ m := (List.nodup_cons.1 (List.nodup_append.1 hnodup).2.1).1
      exact ih (b :: m) (c.pushFront b) (pushFront_ring hring hb) hnodup
  have hnil : Chain.Ring (update c.next none none) (update c.prev none none) [] :=
    Chain.Ring.nil (update_self _ _ _) (update_self _ _ _)
  have hnodup : ((finRange nbuf).reverse ++ []).Nodup := by
    rw [List.append_nil]
    exact List.nodup_reverse.2 (List.nodup_finRange nbuf)
  have := hfold (finRange nbuf) []
    { c with prev := update c.prev none none, next := update c.next none none }
    hnil hnodup
  rwa [List.append_nil] at this

/-- No list has more buffers than there are. -/
theorem length_le_nbuf (h : l.Nodup) : l.length < nbuf + 1 := by
  have := List.Nodup.length_le_card h
  rw [Fintype.card_fin] at this
  omega

/-- `bget` searches the list, forwards for the block and backwards for an unused buffer. -/
theorem bget_eq (h : Chain.Ring c.next c.prev l) :
    bget dev blockno c =
      match l.find? (c.caches dev blockno) with
      | some b => .ok b (c.setRef b (c.refcnt b + 1))
      | none =>
        match l.reverse.find? (fun b => c.refcnt b == 0) with
        | some b => .ok b (c.recycle dev blockno b)
        | none => .panic "bget: no buffers" c := by
  rw [bget, Chain.walk_eq h.leads (length_le_nbuf h.nodup),
    Chain.walk_eq h.back (length_le_nbuf (List.nodup_reverse.2 h.nodup))]
  cases l.find? (c.caches dev blockno) with
  | some b => rfl
  | none =>
    cases l.reverse.find? (fun b => c.refcnt b == 0) with
    | some b => rfl
    | none => rfl

end Pointers

/-! ## The order -/

/-- The invariant: a ring through all buffers with the unused ones in order. -/
structure Inv (s : Sys) (l : List BufId) : Prop where
  ring : Chain.Ring s.c.next s.c.prev l
  all : ∀ b, b ∈ l
  ref : ∀ b, s.c.refcnt b = s.users b + s.pins b
  lt : ∀ b, s.c.refcnt b < 2 ^ 32
  sorted : (l.filter fun b => s.c.refcnt b == 0).Pairwise fun a b => s.stamp b < s.stamp a
  fresh : ∀ b, s.stamp b < s.clock

section Order

variable {s s' : Sys} {c : Bcache} {l : List BufId} {b : BufId} {users pins : BufId → ℕ}

/-- A call after which no other buffer is unused, and the list is as before. -/
theorem Inv.tick (h : Inv s l) (hnext : c.next = s.c.next) (hprev : c.prev = s.c.prev)
    (hzero : ∀ b, c.refcnt b = 0 → s.c.refcnt b = 0)
    (href : ∀ b, c.refcnt b = users b + pins b) (hlt : ∀ b, c.refcnt b < 2 ^ 32) :
    Inv (s.tick c users pins) l := by
  have hstamp : ∀ b, (s.tick c users pins).stamp b = s.stamp b := by
    intro b
    exact if_neg fun hb => hb.1 (hzero b hb.2)
  refine ⟨?_, h.all, href, hlt, ?_, ?_⟩
  · change Chain.Ring c.next c.prev l
    rw [hnext, hprev]
    exact h.ring
  · have hsub : (l.filter fun b => c.refcnt b == 0).Sublist
        (l.filter fun b => s.c.refcnt b == 0) := by
      apply List.monotone_filter_right
      intro b hb
      simpa using hzero b (by simpa using hb)
    have hsorted := h.sorted.sublist hsub
    simp only [hstamp]
    exact hsorted
  · intro b
    rw [hstamp]
    exact Nat.lt_succ_of_lt (h.fresh b)

theorem add_eq (f : BufId → ℕ) (a b : BufId) : add f b a = f a + if a = b then 1 else 0 := by
  unfold add
  by_cases hab : a = b
  · rw [hab, update_self, if_pos rfl]
  · rw [update_of_ne hab, if_neg hab, Nat.add_zero]

theorem sub_eq (f : BufId → ℕ) (a b : BufId) : sub f b a = f a - if a = b then 1 else 0 := by
  unfold sub
  by_cases hab : a = b
  · rw [hab, update_self, if_pos rfl]
  · rw [update_of_ne hab, if_neg hab, Nat.sub_zero]

/-- One more reference. -/
theorem Inv.raise (h : Inv s l) (hnext : c.next = s.c.next) (hprev : c.prev = s.c.prev)
    (hcount : c.refcnt = update s.c.refcnt b (s.c.refcnt b + 1))
    (hb : s.users b + s.pins b + 1 < 2 ^ 32)
    (hsum : ∀ a, users a + pins a = s.users a + s.pins a + if a = b then 1 else 0) :
    Inv (s.tick c users pins) l := by
  have hcount' : ∀ a, c.refcnt a = users a + pins a := by
    intro a
    rw [hsum, hcount]
    by_cases hab : a = b
    · rw [hab, update_self, if_pos rfl, h.ref]
    · rw [update_of_ne hab, if_neg hab, h.ref a, Nat.add_zero]
  refine h.tick hnext hprev ?_ hcount' ?_
  · intro a ha
    rw [hcount', hsum] at ha
    rw [h.ref a]
    omega
  · intro a
    rw [hcount', hsum]
    by_cases hab : a = b
    · rw [hab, if_pos rfl]
      exact hb
    · rw [if_neg hab, Nat.add_zero, ← h.ref a]
      exact h.lt a

/-- One more reference does not wrap around. -/
theorem Inv.setRef_succ (h : Inv s l) (hb : s.users b + s.pins b + 1 < 2 ^ 32) :
    (s.c.setRef b (s.c.refcnt b + 1)).refcnt =
      update s.c.refcnt b (s.c.refcnt b + 1) := by
  unfold setRef
  rw [h.ref, Nat.mod_eq_of_lt hb]

/-- One reference less. -/
theorem Inv.lower (h : Inv s l) (hb : 0 < s.users b + s.pins b)
    (hsum : ∀ a, users a + pins a = s.users a + s.pins a - if a = b then 1 else 0) (a : BufId) :
    (s.c.setRef b (s.c.refcnt b + (2 ^ 32 - 1))).refcnt a = users a + pins a := by
  have hrefb := h.ref b
  have hltb := h.lt b
  unfold setRef
  dsimp only
  rw [hsum]
  by_cases hab : a = b
  · rw [hab, update_self, if_pos rfl]
    omega
  · rw [update_of_ne hab, if_neg hab, h.ref a, Nat.sub_zero]

/-- One reference less to a buffer that stays in use. -/
theorem Inv.lowered (h : Inv s l)
    (hcount : ∀ a, (s.c.setRef b (s.c.refcnt b + (2 ^ 32 - 1))).refcnt a = users a + pins a)
    (hsum : ∀ a, users a + pins a = s.users a + s.pins a - if a = b then 1 else 0)
    (hpos : users b + pins b ≠ 0) :
    Inv (s.tick (s.c.setRef b (s.c.refcnt b + (2 ^ 32 - 1))) users pins) l := by
  refine h.tick rfl rfl ?_ hcount ?_
  · intro a ha
    by_cases hab : a = b
    · rw [hab, hcount b] at ha
      exact absurd ha hpos
    · rw [hcount, hsum, if_neg hab, Nat.sub_zero, ← h.ref] at ha
      exact ha
  · intro a
    have := h.lt a
    rw [h.ref] at this
    rw [hcount, hsum]
    omega

/-- A buffer becomes unused and moves to the front. -/
theorem Inv.front (h : Inv s l) (hb : s.c.refcnt b ≠ 0)
    (hcount : ∀ a, (s.c.setRef b (s.c.refcnt b + (2 ^ 32 - 1))).refcnt a = users a + pins a)
    (hzero : users b + pins b = 0) (hlt : ∀ a, users a + pins a < 2 ^ 32)
    (hsame : ∀ a, a ≠ b → users a + pins a = s.c.refcnt a) :
    Inv (s.tick (((s.c.setRef b (s.c.refcnt b + (2 ^ 32 - 1))).unlink b).pushFront b) users pins)
      (b :: l.erase b) := by
  set c := s.c.setRef b (s.c.refcnt b + (2 ^ 32 - 1)) with hc
  have hring : Chain.Ring c.next c.prev l := h.ring
  have hout : b ∉ l.erase b := fun hmem => (h.ring.nodup.mem_erase_iff.1 hmem).1 rfl
  have hstamp_b : (s.tick ((c.unlink b).pushFront b) users pins).stamp b = s.clock :=
    if_pos ⟨hb, (hcount b).trans hzero⟩
  have hstamp : ∀ a, a ≠ b →
      (s.tick ((c.unlink b).pushFront b) users pins).stamp a = s.stamp a := by
    intro a ha
    refine if_neg fun hbecame => hbecame.1 ?_
    rw [← hsame a ha, ← hcount a]
    exact hbecame.2
  refine ⟨pushFront_ring (unlink_ring hring (h.all b)) hout, ?_, hcount, fun a => ?_, ?_, ?_⟩
  · intro a
    by_cases hab : a = b
    · rw [hab]
      exact mem_cons_self
    · exact List.mem_cons_of_mem _ ((List.mem_erase_of_ne hab).2 (h.all a))
  · exact (hcount a).trans_lt (hlt a)
  · change ((b :: l.erase b).filter fun a => c.refcnt a == 0).Pairwise _
    have hne : ∀ a ∈ l.erase b, a ≠ b := fun a ha => (h.ring.nodup.mem_erase_iff.1 ha).1
    have hfilter : ((l.erase b).filter fun a => c.refcnt a == 0) =
        (l.erase b).filter fun a => s.c.refcnt a == 0 := by
      apply List.filter_congr
      intro a ha
      rw [hcount a, hsame a (hne a ha)]
    have hsub : (l.erase b).Sublist l := List.erase_sublist
    have hsorted := h.sorted.sublist (hsub.filter fun a => s.c.refcnt a == 0)
    have hfront : (c.refcnt b == 0) = true := by
      rw [hcount b, hzero]
      rfl
    rw [List.filter_cons, if_pos hfront, hfilter]
    refine List.pairwise_cons.2 ⟨?_, hsorted.imp_of_mem ?_⟩
    · intro a ha
      rw [hstamp_b, hstamp a (hne a (mem_filter.1 ha).1)]
      exact h.fresh a
    · intro a a' ha ha' hlt
      rw [hstamp a (hne a (mem_filter.1 ha).1), hstamp a' (hne a' (mem_filter.1 ha').1)]
      exact hlt
  · intro a
    by_cases hab : a = b
    · rw [hab, hstamp_b]
      exact Nat.lt_succ_self _
    · rw [hstamp a hab]
      exact Nat.lt_succ_of_lt (h.fresh a)

/-- Each call keeps the invariant, with the list that it leaves. -/
theorem Step.inv (hstep : Step s s') (h : Inv s l) : ∃ l', Inv s' l' := by
  have hadd : ∀ (f g : BufId → ℕ) (b a : BufId),
      add f b a + g a = f a + g a + if a = b then 1 else 0 := by
    intro f g b a
    rw [add_eq]
    omega
  have hsub : ∀ (f g : BufId → ℕ) (b a : BufId), 0 < f b →
      sub f b a + g a = f a + g a - if a = b then 1 else 0 := by
    intro f g b a hf
    rw [sub_eq]
    by_cases hab : a = b
    · rw [hab, if_pos rfl]
      omega
    · rw [if_neg hab]
      rfl
  cases hstep with
  | @bget dev blockno b c hcall hb =>
    rw [bget_eq h.ring] at hcall
    cases hfind : l.find? (s.c.caches dev blockno) with
    | some b' =>
      rw [hfind] at hcall
      cases hcall
      exact ⟨l, h.raise rfl rfl (h.setRef_succ hb) hb (hadd _ _ _)⟩
    | none =>
      rw [hfind] at hcall
      cases hunused : l.reverse.find? (fun b => s.c.refcnt b == 0) with
      | none =>
        rw [hunused] at hcall
        cases hcall
      | some b' =>
        rw [hunused] at hcall
        cases hcall
        have hzero : s.c.refcnt b = 0 := by simpa using List.find?_some hunused
        refine ⟨l, h.raise rfl rfl ?_ hb (hadd _ _ _)⟩
        rw [hzero]
        rfl
  | @brelse b hb =>
    have hsum := fun a => hsub s.users s.pins b a hb
    have hcount := h.lower (by omega) hsum
    rw [Bcache.brelse]
    split
    · rename_i hzero
      rw [hcount] at hzero
      refine ⟨_, h.front ?_ hcount hzero ?_ ?_⟩
      · rw [h.ref]
        omega
      · intro a
        have := h.lt a
        rw [h.ref] at this
        rw [hsum]
        omega
      · intro a ha
        rw [hsum, if_neg ha, h.ref, Nat.sub_zero]
    · rename_i hpos
      exact ⟨l, h.lowered hcount hsum fun hzero => hpos ((hcount b).trans hzero)⟩
  | @bpin b hb =>
    refine ⟨l, h.raise rfl rfl (h.setRef_succ hb) hb fun a => ?_⟩
    have := hadd s.pins s.users b a
    omega
  | @bunpin b hb hpin =>
    have hsum : ∀ a, s.users a + sub s.pins b a =
        s.users a + s.pins a - if a = b then 1 else 0 := by
      intro a
      have := hsub s.pins s.users b a hpin
      omega
    refine ⟨l, h.lowered (h.lower (by omega) hsum) hsum ?_⟩
    rw [hsum b, if_pos rfl]
    omega

/-- The invariant holds after `binit`. -/
theorem init_inv (c : Bcache) (hc : c.refcnt = fun _ => 0) :
    Inv (Sys.init c) (finRange nbuf).reverse := by
  obtain ⟨hring, hcount⟩ := binit_ring c
  have hzero : ∀ b, c.binit.refcnt b = 0 := fun b => by rw [hcount, hc]
  refine ⟨hring, fun b => mem_reverse.2 (List.mem_finRange b), hzero, ?_, ?_, fun b => b.isLt⟩
  · intro b
    exact (hzero b).trans_lt (by norm_num)
  · apply List.Pairwise.filter
    exact List.pairwise_reverse.2 (List.pairwise_lt_finRange nbuf)

/-- The invariant holds in every run. -/
theorem Reachable.inv (hs : Reachable s) : ∃ l, Inv s l := by
  obtain ⟨c, hc, hsteps⟩ := hs
  induction hsteps with
  | refl => exact ⟨_, init_inv c hc⟩
  | tail _ hstep ih =>
    obtain ⟨l, h⟩ := ih
    exact hstep.inv h

/-- The pointers in both directions are inverse to each other. -/
theorem Inv.inverse (h : Inv s l) :
    (∀ x, s.c.prev (s.c.next x) = x) ∧ ∀ x, s.c.next (s.c.prev x) = x := by
  have hleft : Function.LeftInverse s.c.prev s.c.next := by
    intro x
    apply h.ring.inverse
    cases x with
    | none => exact mem_cons_self
    | some b => exact Chain.some_mem_nodes.2 (h.all b)
  have hsurj : Function.Surjective s.c.next :=
    Finite.injective_iff_surjective.1 hleft.injective
  exact ⟨hleft, hleft.rightInverse_of_surjective hsurj⟩

/-- The last unused buffer of the list became unused first. -/
theorem Inv.oldest (h : Inv s l) (hb : l.reverse.find? (fun b => s.c.refcnt b == 0) = some b)
    {b' : BufId} (hb' : s.c.refcnt b' = 0) (hne : b' ≠ b) : s.stamp b < s.stamp b' := by
  obtain ⟨hzero, as, bs, hsplit, has⟩ := List.find?_eq_some_iff_append.1 hb
  have hl : l = bs.reverse ++ b :: as.reverse := by
    rw [← List.reverse_reverse l, hsplit]
    simp
  have hsorted := h.sorted
  rw [hl, List.filter_append, List.filter_cons, if_pos hzero] at hsorted
  apply (List.pairwise_append.1 hsorted).2.2 b' _ b mem_cons_self
  apply mem_filter.2
  refine ⟨?_, by simpa using hb'⟩
  have hmem := h.all b'
  rw [hl, List.mem_append, mem_cons, mem_reverse, mem_reverse] at hmem
  rcases hmem with hmem | hmem | hmem
  · exact mem_reverse.2 hmem
  · exact absurd hmem hne
  · have := has b' hmem
    simp [hb'] at this

/-- The list goes once through all buffers, with the unused ones in the order in which they became
unused, latest first; the pointers backwards are inverse to those forwards. For a block that is
not cached, `bget` takes the buffer that became unused first. -/
theorem list_in_recency_order (s : Sys) (hs : Reachable s) :
    ∃ l : List BufId, Chain.Leads s.c.next none (l.map some) none ∧ l.Nodup ∧ (∀ b, b ∈ l) ∧
      ((∀ x, s.c.prev (s.c.next x) = x) ∧ ∀ x, s.c.next (s.c.prev x) = x) ∧
      ((l.filter fun b => s.c.refcnt b == 0).Pairwise fun a b => s.stamp b < s.stamp a) ∧
      ∀ dev blockno, (∀ b, s.c.caches dev blockno b = false) →
        (∃ b c, bget dev blockno s.c = .ok b c ∧ s.c.refcnt b = 0 ∧
          ∀ b', s.c.refcnt b' = 0 → b' ≠ b → s.stamp b < s.stamp b') ∨
        (∀ b, s.c.refcnt b ≠ 0) ∧ bget dev blockno s.c = .panic "bget: no buffers" s.c := by
  obtain ⟨l, h⟩ := hs.inv
  refine ⟨l, h.ring.leads, h.ring.nodup, h.all, h.inverse, h.sorted, ?_⟩
  intro dev blockno huncached
  have hfind : l.find? (s.c.caches dev blockno) = none := by
    apply List.find?_eq_none.2
    intro b _
    rw [huncached b]
    exact Bool.false_ne_true
  rw [bget_eq h.ring, hfind]
  cases hunused : l.reverse.find? (fun b => s.c.refcnt b == 0) with
  | some b =>
    refine .inl ⟨b, _, rfl, by simpa using List.find?_some hunused, ?_⟩
    intro b' hb' hne
    exact h.oldest hunused hb' hne
  | none =>
    refine .inr ⟨?_, rfl⟩
    intro b
    simpa using List.find?_eq_none.1 hunused b (mem_reverse.2 (h.all b))

/-- The cache before `binit`. -/
def blank : Bcache :=
  ⟨fun _ => none, fun _ => none, fun _ => 0, fun _ => 0, fun _ => false, fun _ => 0⟩

/-- Two blocks are read and the first buffer is released. Then a buffer that was never used is
recycled before it. -/
theorem list_in_recency_order_three : ∃ s b c, Reachable s ∧ s.c.refcnt 0 = 0 ∧ s.c.refcnt 1 = 1 ∧
    bget 1 7 s.c = .ok b c ∧ ∀ b', s.c.refcnt b' = 0 → b' ≠ b → s.stamp b < s.stamp b' := by
  have hfirst : Step (Sys.init blank) _ := @Step.bget _ 1 5 0 _ rfl (by decide)
  have hreach := ((Relation.ReflTransGen.single hfirst).tail
    (@Step.bget _ 1 6 1 _ rfl (by decide))).tail (@Step.brelse _ 0 (by decide))
  obtain ⟨-, -, -, -, -, -, hrecycle⟩ := list_in_recency_order _ ⟨blank, rfl, hreach⟩
  rcases hrecycle 1 7 (by decide +kernel) with ⟨b, c, hok, -, holdest⟩ | ⟨hused, -⟩
  · exact ⟨_, b, c, ⟨blank, rfl, hreach⟩, rfl, rfl, hok, holdest⟩
  · exact absurd rfl (hused 0)

/-- `bunpin` of a held buffer that is not pinned makes it unused where it is: at the end of the
list, although it was used last, so that it is recycled before the buffers never used. -/
theorem bunpin_without_bpin :
    ∃ c c', bget 1 5 blank.binit = .ok 0 c ∧ c.refcnt 0 = 1 ∧ (c.bunpin 0).refcnt 0 = 0 ∧
      (c.bunpin 0).refcnt 1 = 0 ∧ (c.bunpin 0).prev none = some 0 ∧
      bget 1 6 (c.bunpin 0) = .ok 0 c' :=
  ⟨_, _, rfl, rfl, rfl, rfl, rfl, rfl⟩

end Order

/-! ## The list of indices -/

section Refines

variable {P : Type} {c : Bcache} {s : Store P} {b : BufId}

/-- The fields of a buffer. -/
def view (c : Bcache) (b : BufId) : ℕ × ℕ × Bool × ℤ :=
  (c.dev b, c.blockno b, c.valid b, c.refcnt b)

/-- The pointers link the list of `RiscvKernel.Bio`, and the buffers have the same fields. -/
structure Refines (c : Bcache) (s : Store P) : Prop where
  ring : Chain.Ring c.next c.prev s.lru
  all : ∀ b, b ∈ s.lru
  bufs : ∀ b, c.view b = ((s.bufs b).dev, (s.bufs b).blockno, (s.bufs b).valid, (s.bufs b).refcnt)

namespace Refines

/-- The counts are the same. -/
theorem refcnt (h : Refines c s) (b : BufId) : (c.refcnt b : ℤ) = (s.bufs b).refcnt :=
  congrArg (fun x => x.2.2.2) (h.bufs b)

/-- A new count on both sides. -/
theorem view_setRef (h : Refines c s) {n : ℕ} {r : ℤ} (hr : ((n % 2 ^ 32 : ℕ) : ℤ) = r) :
    (c.setRef b n).view b = ((s.bufs b).dev, (s.bufs b).blockno, (s.bufs b).valid, r) := by
  have hb := h.bufs b
  simp only [view, Prod.mk.injEq] at hb
  simp only [view, setRef, update_self, hb, hr]

/-- The relation holds again when one buffer has changed in both. -/
theorem change {c' : Bcache} {s' : Store P} (h : Refines c s)
    (hring : Chain.Ring c'.next c'.prev s'.lru) (hall : ∀ a, a ∈ s'.lru)
    (hother : ∀ a, a ≠ b → s'.bufs a = s.bufs a ∧ c'.view a = c.view a)
    (hself : c'.view b =
      ((s'.bufs b).dev, (s'.bufs b).blockno, (s'.bufs b).valid, (s'.bufs b).refcnt)) :
    Refines c' s' := by
  refine ⟨hring, hall, fun a => ?_⟩
  by_cases hab : a = b
  · rw [hab]
    exact hself
  · rw [(hother a hab).1, (hother a hab).2]
    exact h.bufs a

/-- `bget` on the pointers is `bget` on the list of indices. -/
theorem bget (h : Refines c s) (hlt : ∀ b, c.refcnt b + 1 < 2 ^ 32) (dev blockno : ℕ) (p : P) :
    (∃ b c' s', bget dev blockno c = .ok b c' ∧ bgetSection dev blockno p s = .done b s' [] ∧
      Refines c' s') ∨
      bget dev blockno c = .panic "bget: no buffers" c ∧
        bgetSection dev blockno p s = .panic "bget: no buffers" := by
  have hcaches : c.caches dev blockno = fun i => (s.bufs i).caches dev blockno := by
    funext i
    have hi := h.bufs i
    simp only [view, Prod.mk.injEq] at hi
    rw [caches, Buf.caches, hi.1, hi.2.1]
  have hunused : (fun i => c.refcnt i == 0) = fun i => (s.bufs i).refcnt == 0 := by
    funext i
    rw [← h.refcnt i]
    apply Bool.eq_iff_iff.2
    simp
  rw [bget_eq h.ring, bgetSection, hcaches, hunused]
  cases s.lru.find? fun i => (s.bufs i).caches dev blockno with
  | some b =>
    refine .inl ⟨b, _, _, rfl, rfl, h.change (b := b) h.ring h.all ?_ ?_⟩
    · intro a hab
      simp [Store.claim, Store.setBuf, Store.setUsers, setRef, view, hab]
    · have hcount : (((c.refcnt b + 1) % 2 ^ 32 : ℕ) : ℤ) = (s.bufs b).refcnt + 1 := by
        rw [Nat.mod_eq_of_lt (hlt b), Nat.cast_add, h.refcnt]
        rfl
      simpa [Store.claim, Store.setBuf, Store.setUsers] using h.view_setRef (b := b) hcount
  | none =>
    cases s.lru.reverse.find? fun i => (s.bufs i).refcnt == 0 with
    | some b =>
      refine .inl ⟨b, _, _, rfl, rfl, h.change (b := b) h.ring h.all ?_ ?_⟩
      · intro a hab
        simp [Store.claim, Store.setBuf, Store.setUsers, recycle, view, hab]
      · simp [Store.claim, Store.setBuf, Store.setUsers, recycle, view]
    | none => exact .inr ⟨rfl, rfl⟩

/-- `brelse` on the pointers is `brelse` on the list of indices. -/
theorem brelse [DecidableEq P] (h : Refines c s) (hpos : 0 < c.refcnt b)
    (hlt : c.refcnt b < 2 ^ 32) (p : P) : Refines (c.brelse b) (s.unref p b) := by
  have hcount : (((c.refcnt b + (2 ^ 32 - 1)) % 2 ^ 32 : ℕ) : ℤ) = (s.bufs b).refcnt - 1 := by
    rw [← h.refcnt]
    omega
  have hzero : (c.setRef b (c.refcnt b + (2 ^ 32 - 1))).refcnt b = 0 ↔
      (s.bufs b).refcnt - 1 = 0 := by
    simp only [← hcount, setRef, update_self]
    exact Int.natCast_eq_zero.symm
  rw [Bcache.brelse, Store.unref]
  by_cases hz : (s.bufs b).refcnt - 1 = 0
  · rw [if_pos hz, if_pos (hzero.2 hz)]
    have hout : b ∉ s.lru.erase b := fun hmem => (h.ring.nodup.mem_erase_iff.1 hmem).1 rfl
    refine h.change (b := b) (pushFront_ring (unlink_ring h.ring (h.all b)) hout) ?_ ?_ ?_
    · intro a
      by_cases hab : a = b
      · exact mem_cons.2 (.inl hab)
      · exact List.mem_cons_of_mem _ ((List.mem_erase_of_ne hab).2 (h.all a))
    · intro a hab
      simp [Store.setBuf, Store.setUsers, setRef, unlink, pushFront, view, hab]
    · change (c.setRef b (c.refcnt b + (2 ^ 32 - 1))).view b = _
      simpa [Store.setBuf, Store.setUsers] using h.view_setRef (b := b) hcount
  · rw [if_neg hz, if_neg (hzero.not.2 hz)]
    refine h.change (b := b) h.ring h.all ?_ ?_
    · intro a hab
      simp [Store.setBuf, Store.setUsers, setRef, view, hab]
    · simpa [Store.setBuf, Store.setUsers] using h.view_setRef (b := b) hcount

end Refines

/-- A call on the pointers and the same call on the list, as long as no count overflows. -/
inductive Both [DecidableEq P] : Bcache × Store P → Bcache × Store P → Prop
  | bget {c c' : Bcache} {s s' : Store P} {b b' : BufId} (p : P) (dev blockno : ℕ)
    (hlt : ∀ b, c.refcnt b + 1 < 2 ^ 32) (h : bget dev blockno c = .ok b c')
    (h' : bgetSection dev blockno p s = .done b' s' []) : Both (c, s) (c', s')
  | brelse {c : Bcache} {s : Store P} (p : P) (b : BufId) (hpos : 0 < c.refcnt b)
    (hlt : c.refcnt b < 2 ^ 32) : Both (c, s) (c.brelse b, s.unref p b)

/-- From `binit` on the pointers and the list agree: the next `bget` returns the same buffer. -/
theorem pointers_refine_list [DecidableEq P] (start dev : ℕ) (d : ℕ → Block)
    (y : Bcache × Store P)
    (hrun : Relation.ReflTransGen Both (blank.binit, (boot start dev d : Store P)) y) :
    Refines y.1 y.2 ∧ ((∀ b, y.1.refcnt b + 1 < 2 ^ 32) → ∀ dev blockno p,
      (∃ b c' s', bget dev blockno y.1 = .ok b c' ∧
        bgetSection dev blockno p y.2 = .done b s' []) ∨
      bget dev blockno y.1 = .panic "bget: no buffers" y.1 ∧
        bgetSection dev blockno p y.2 = .panic "bget: no buffers") := by
  have hrefines : Refines y.1 y.2 := by
    induction hrun with
    | refl =>
      refine ⟨(binit_ring blank).1, fun b => ?_, fun b => rfl⟩
      exact mem_reverse.2 (List.mem_finRange b)
    | tail _ hstep ih =>
      cases hstep with
      | bget p dev blockno hlt h h' =>
        rcases ih.bget hlt dev blockno p with ⟨b, c', s', hok, hdone, hnext⟩ | ⟨hpanic, -⟩
        · rw [h] at hok
          rw [h'] at hdone
          cases hok
          cases hdone
          exact hnext
        · rw [h] at hpanic
          cases hpanic
      | brelse p b hpos hlt => exact ih.brelse hpos hlt p
  refine ⟨hrefines, fun hlt dev blockno p => (hrefines.bget hlt dev blockno p).imp_left ?_⟩
  rintro ⟨b, c', s', hok, hdone, -⟩
  exact ⟨b, c', s', hok, hdone⟩

/-- A buffer is taken and given back. -/
theorem pointers_refine_list_once : ∃ y : Bcache × Store Unit, y.1.next none = some 0 ∧
    Refines y.1 y.2 := by
  have hget : Both (blank.binit, (boot 0 1 fun _ => Block.zero : Store Unit)) _ :=
    .bget () 1 5 (by decide +kernel) rfl rfl
  refine ⟨_, ?_, (pointers_refine_list 0 1 (fun _ => Block.zero) _
    ((Relation.ReflTransGen.single hget).tail (.brelse () 0 ?_ ?_))).1⟩
  · rfl
  · decide
  · decide

end Refines

end Bcache

end RiscvKernel
