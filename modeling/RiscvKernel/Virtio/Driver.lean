import Mathlib.Data.List.Nodup
import RiscvKernel.Virtio.Model

/-!
# Descriptors

What the functions on descriptors do: `alloc3_desc` takes three different free descriptors
or gives back all it took, and `free_chain` frees a chain that stands as it was formatted.
From these follows what every step of the driver does that does not panic.
-/

namespace RiscvKernel.Virtio

open Function

variable {P B : Type}

/-- The descriptors of a list taken. -/
def takeAll (l : List ℕ) (free : ℕ → Bool) : ℕ → Bool := fun i => if i ∈ l then false else free i

/-- The descriptors of a list given back. -/
def giveAll (l : List ℕ) (free : ℕ → Bool) : ℕ → Bool := fun i => if i ∈ l then true else free i

/-- The descriptors of a list cleared. -/
def clearAll (l : List ℕ) (desc : ℕ → Desc B) : ℕ → Desc B :=
  fun i => if i ∈ l then .zero else desc i

/-- The sleepers left after a wakeup of a channel. -/
def woken [DecidableEq B] (c : Chan B) (asleep : P → Option (Chan B)) : P → Option (Chan B) :=
  fun p => if asleep p = some c then none else asleep p

/-- One more descriptor is taken. -/
theorem takeAll_concat (l : List ℕ) (i : ℕ) (free : ℕ → Bool) :
    update (takeAll l free) i false = takeAll (l ++ [i]) free := by
  funext k
  by_cases hk : k = i
  · subst hk; simp [takeAll]
  · simp [takeAll, hk]

/-- Two chains are freed. -/
theorem giveAll_giveAll (l l' : List ℕ) (free : ℕ → Bool) :
    giveAll l' (giveAll l free) = giveAll (l ++ l') free := by
  funext k
  by_cases hk : k ∈ l
  · simp [giveAll, hk]
  · simp [giveAll, hk]

theorem clearAll_clearAll (l l' : List ℕ) (desc : ℕ → Desc B) :
    clearAll l' (clearAll l desc) = clearAll (l ++ l') desc := by
  funext k
  by_cases hk : k ∈ l
  · simp [clearAll, hk]
  · simp [clearAll, hk]

theorem clearAll_of_not_mem {l : List ℕ} {i : ℕ} (h : i ∉ l) (desc : ℕ → Desc B) :
    clearAll l desc i = desc i := if_neg h

/-- Giving back what was taken from the free descriptors leaves them as they were. -/
theorem giveAll_takeAll {l : List ℕ} {free : ℕ → Bool} (h : ∀ i ∈ l, free i = true) :
    giveAll l (takeAll l free) = free := by
  funext k
  by_cases hk : k ∈ l
  · simp [giveAll, hk, h k hk]
  · simp [giveAll, takeAll, hk]

/-- Who is still asleep. -/
theorem woken_some [DecidableEq B] {c d : Chan B} {asleep : P → Option (Chan B)} {p : P}
    (h : woken c asleep p = some d) : asleep p = some d ∧ d ≠ c := by
  unfold woken at h
  split_ifs at h with hc
  refine ⟨h, ?_⟩
  rintro rfl
  exact hc h

@[simp] theorem woken_woken [DecidableEq B] (c : Chan B) (asleep : P → Option (Chan B)) :
    woken c (woken c asleep) = woken c asleep := by
  funext p
  unfold woken
  split_ifs <;> rfl

/-! ### Allocation -/

/-- Taking one free descriptor leaves one less. -/
theorem freeCount_take {s : State P B} {i : ℕ} (hi : i < num) (hfree : s.free i = true) :
    s.freeCount = State.freeCount { s with free := update s.free i false } + 1 := by
  have herase : Finset.filter (fun k => update s.free i false k = true)
      (Finset.range num) =
      (Finset.filter (fun k => s.free k = true) (Finset.range num)).erase i := by
    ext k
    by_cases hk : k = i
    · subst hk; simp
    · simp [hk]
  have hmem : i ∈ Finset.filter (fun k => s.free k = true) (Finset.range num) := by
    simp [hi, hfree]
  unfold State.freeCount
  rw [herase, Finset.card_erase_of_mem hmem]
  have hpos := Finset.card_pos.mpr ⟨i, hmem⟩
  omega

/-- `alloc_desc` takes a free descriptor if there is one. -/
theorem allocDesc_cases (s : State P B) :
    (∃ i, i < num ∧ s.free i = true ∧
      allocDesc s = some (i, { s with free := update s.free i false })) ∨
    (s.freeCount = 0 ∧ allocDesc s = none) := by
  unfold allocDesc
  cases hfind : (List.range num).find? s.free with
  | some i =>
    have hi := List.mem_range.mp (List.mem_of_find?_eq_some hfind)
    exact .inl ⟨i, hi, List.find?_some hfind, rfl⟩
  | none =>
    refine .inr ⟨?_, rfl⟩
    rw [List.find?_eq_none] at hfind
    rw [State.freeCount, Finset.card_eq_zero, Finset.filter_eq_empty_iff]
    intro i hi
    exact hfind i (List.mem_range.mpr (Finset.mem_range.mp hi))

/-- `free_desc` of a descriptor in use. -/
theorem freeDesc_eq [DecidableEq B] {s : State P B} {i : ℕ} (hi : i < num)
    (hused : s.free i = false) :
    freeDesc i s = .ok { s with
      desc := clearAll [i] s.desc
      free := giveAll [i] s.free
      asleep := woken .free s.asleep } := by
  have hlt : ¬ num ≤ i := by omega
  have hdesc : update s.desc i .zero = clearAll [i] s.desc := by
    funext k
    by_cases hk : k = i
    · subst hk; simp [clearAll]
    · simp [clearAll, hk]
  have hfree : update s.free i true = giveAll [i] s.free := by
    funext k
    by_cases hk : k = i
    · subst hk; simp [giveAll]
    · simp [giveAll, hk]
  rw [freeDesc, if_neg hlt, hused, if_neg (by simp), wakeup, hdesc, hfree]
  rfl

/-- What a failed allocation leaves behind: descriptors that were free may have been
cleared, and sleepers may have been woken. -/
structure Undone (s s' : State P B) : Prop where
  desc : ∀ i, s.free i = false → s'.desc i = s.desc i
  asleep : ∀ p c, s'.asleep p = some c → s.asleep p = some c
  rest : s' = { s with desc := s'.desc, asleep := s'.asleep }

theorem Undone.refl (s : State P B) : Undone s s := ⟨fun _ _ => rfl, fun _ _ h => h, rfl⟩

/-- Taking free descriptors and giving them back. -/
theorem Undone.roundtrip [DecidableEq B] {s : State P B} {l : List ℕ}
    (hl : ∀ i ∈ l, s.free i = true) :
    Undone s { s with
      desc := clearAll l s.desc
      free := giveAll l (takeAll l s.free)
      asleep := woken .free s.asleep } := by
  refine ⟨fun i hi => ?_, fun p c h => (woken_some h).1, ?_⟩
  · have hmem : i ∉ l := fun hmem => by simp [hl i hmem] at hi
    simp [clearAll, hmem]
  · rw [giveAll_takeAll hl]

/-- `alloc3_desc` takes three different free descriptors, or there are fewer than three
and it takes none. -/
theorem alloc3Desc_cases [DecidableEq B] (s : State P B) :
    (∃ x : Triple, x.toList.Nodup ∧ (∀ i ∈ x.toList, i < num ∧ s.free i = true) ∧
      alloc3Desc s = .ok (some x, { s with free := takeAll x.toList s.free })) ∨
    (s.freeCount < 3 ∧ ∃ s', Undone s s' ∧ alloc3Desc s = .ok (none, s')) := by
  unfold alloc3Desc
  obtain ⟨i, hi, hfi, hai⟩ | ⟨hcount, hnone⟩ := allocDesc_cases s
  swap
  · rw [hnone]
    exact .inr ⟨by omega, s, .refl s, rfl⟩
  rw [hai]
  have hcounti := freeCount_take hi hfi
  have htakei : update s.free i false = takeAll [i] s.free := by
    exact takeAll_concat [] i s.free
  rw [htakei] at hcounti ⊢
  simp only
  obtain ⟨j, hj, hfj, haj⟩ | ⟨hcount, hnone⟩ :=
    allocDesc_cases { s with free := takeAll [i] s.free }
  swap
  · -- The second round fails and gives back the first descriptor.
    refine .inr ⟨by omega, _, Undone.roundtrip (l := [i]) (by simpa using hfi), ?_⟩
    rw [hnone]
    simp only
    rw [freeDesc_eq hi (by simp [takeAll])]
    rfl
  rw [haj]
  have hcountj := freeCount_take hj hfj
  simp only [takeAll_concat, List.singleton_append] at hcountj ⊢
  have hji : j ≠ i ∧ s.free j = true := by simpa [takeAll] using hfj
  obtain ⟨k, hk, hfk, hak⟩ | ⟨hcount, hnone⟩ :=
    allocDesc_cases { s with free := takeAll [i, j] s.free }
  swap
  · -- The third round fails and gives back both.
    refine .inr ⟨by omega, _,
      Undone.roundtrip (l := [i, j]) (by simpa using ⟨hfi, hji.2⟩), ?_⟩
    rw [hnone]
    simp only
    rw [freeDesc_eq hi (by simp [takeAll])]
    change (do let s ← freeDesc j _; return (none, s)) = _
    rw [freeDesc_eq hj (by simp [giveAll, takeAll, hji.1])]
    simp only [giveAll_giveAll, clearAll_clearAll, woken_woken, List.singleton_append]
    rfl
  · rw [hak]
    simp only [takeAll_concat, List.cons_append, List.nil_append]
    have hkij : (k ≠ i ∧ k ≠ j) ∧ s.free k = true := by simpa [takeAll] using hfk
    refine .inl ⟨⟨i, j, k⟩, ?_, ?_, rfl⟩
    · simp [Triple.toList, hji.1.symm, hkij.1.1.symm, hkij.1.2.symm]
    · simpa [Triple.toList] using ⟨⟨hi, hfi⟩, ⟨hj, hji.2⟩, hk, hkij.2⟩

/-! ### Chains -/

/-- The chain of a request stands in the descriptors as it was formatted. -/
structure Chained (blockno : B → ℕ) (s : State P B) (r : Request B) (x : Triple) : Prop where
  nodup : x.toList.Nodup
  taken : ∀ i ∈ x.toList, i < num ∧ s.free i = false
  head : s.desc x.head = headDesc x
  body : s.desc x.body = bodyDesc r x
  tail : s.desc x.tail = tailDesc x
  op : s.ops x.head = r.blkReq blockno
  buf : (s.info x.head).b = some r.b
  ticket : s.hist.ticket x.head = r.ticket

@[simp] theorem headDesc_hasNext (x : Triple) : (headDesc x : Desc B).hasNext = true := by
  simp [headDesc, Desc.hasNext, vringDescFNext]

@[simp] theorem bodyDesc_hasNext (r : Request B) (x : Triple) :
    (bodyDesc r x).hasNext = true := by
  cases h : r.write <;> simp [bodyDesc, h, Desc.hasNext, vringDescFNext, vringDescFWrite]

@[simp] theorem tailDesc_hasNext (x : Triple) : (tailDesc x : Desc B).hasNext = false := by
  simp [tailDesc, Desc.hasNext, vringDescFNext, vringDescFWrite]

/-- One round of `free_chain` at a descriptor in use. -/
theorem freeChain_succ [DecidableEq B] {fuel i : ℕ} {s : State P B} (hi : i < num)
    (hused : s.free i = false) :
    freeChain (fuel + 1) i s =
      let s' := { s with
        desc := clearAll [i] s.desc
        free := giveAll [i] s.free
        asleep := woken .free s.asleep }
      if (s.desc i).hasNext then freeChain fuel (s.desc i).next s' else .ok s' := by
  simp only [freeChain, freeDesc_eq hi hused]
  rfl

/-- `free_chain` frees the three descriptors of a chain. -/
theorem freeChain_eq [DecidableEq B] {s : State P B} {r : Request B} {x : Triple}
    (hnodup : x.toList.Nodup) (htaken : ∀ i ∈ x.toList, i < num ∧ s.free i = false)
    (hhead : s.desc x.head = headDesc x) (hbody : s.desc x.body = bodyDesc r x)
    (htail : s.desc x.tail = tailDesc x) :
    freeChain (num + 1) x.head s = .ok { s with
      desc := clearAll x.toList s.desc
      free := giveAll x.toList s.free
      asleep := woken .free s.asleep } := by
  obtain ⟨⟨hlth, hh⟩, ⟨hltb, hb⟩, hltt, ht⟩ :
      (x.head < num ∧ s.free x.head = false) ∧ (x.body < num ∧ s.free x.body = false) ∧
      x.tail < num ∧ s.free x.tail = false := by
    simpa [Triple.toList] using htaken
  obtain ⟨⟨hhb, hht⟩, hbt⟩ : (x.head ≠ x.body ∧ x.head ≠ x.tail) ∧ x.body ≠ x.tail := by
    simpa [Triple.toList] using hnodup
  rw [freeChain_succ hlth hh, hhead, headDesc_hasNext, if_pos rfl]
  change freeChain 8 x.body _ = _
  rw [freeChain_succ hltb (by simp [giveAll, hhb.symm, hb])]
  have hbody' : clearAll [x.head] s.desc x.body = bodyDesc r x := by
    rw [clearAll_of_not_mem (by simp [hhb.symm]), hbody]
  simp only [hbody', bodyDesc_hasNext, if_true]
  change freeChain 7 x.tail _ = _
  rw [freeChain_succ hltt (by simp [giveAll, hht.symm, hbt.symm, ht])]
  have htail' : clearAll [x.body] (clearAll [x.head] s.desc) x.tail = tailDesc x := by
    rw [clearAll_clearAll, clearAll_of_not_mem (by simp [hht.symm, hbt.symm]), htail]
  simp only [htail', tailDesc_hasNext, Bool.false_eq_true, if_false, giveAll_giveAll,
    clearAll_clearAll, woken_woken]
  rfl

/-- What the device is to do for a request. -/
def Request.work (blockno : B → ℕ) (r : Request B) : Completion B where
  ticket := r.ticket
  op := some (r.blkReq blockno)
  data := .data r.b
  deviceWrites := !r.write

/-- The device reads the request from its chain. -/
theorem Chained.chainWork {blockno : B → ℕ} {s : State P B} {r : Request B} {x : Triple}
    (h : Chained blockno s r x) : chainWork s x.head = r.work blockno := by
  unfold Virtio.chainWork Request.work
  rw [h.head, h.ticket]
  simp only [headDesc, h.body, h.op]
  congr 1
  cases hw : r.write <;> simp [bodyDesc, hw, vringDescFNext, vringDescFWrite]

/-- The device writes the status of the request. -/
theorem Chained.writeStatus {blockno : B → ℕ} {s : State P B} {r : Request B} {x : Triple}
    (h : Chained blockno s r x) :
    writeStatus s x.head = update s.info x.head { s.info x.head with status := 0 } := by
  unfold Virtio.writeStatus
  rw [h.head]
  simp only [headDesc, h.body]
  simp only [bodyDesc, h.tail]
  rfl

end RiscvKernel.Virtio
