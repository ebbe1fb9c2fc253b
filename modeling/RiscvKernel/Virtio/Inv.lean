import RiscvKernel.Virtio.Driver

/-!
# The invariant of the driver

Three groups of facts hold in every state. `Chains`: the requests in flight stand on
disjoint triples of descriptors, formatted as they were, and the other descriptors are
free. `Rings`: the unread entries of the avail ring, the chains the device works on and the
unread entries of the used ring are, without repetition, the heads of the published requests
whose buffer is still marked. `Sleepers`: who sleeps has something to wait for. They are
shown step by step, over the moves that the steps amount to when nothing panics.
-/

namespace RiscvKernel.Virtio

open Function

variable {P B : Type} {blockno : B → ℕ} {s s' : State P B} {a : Act P B}
  {p : P} {r : Request B} {x : Triple}

/-- The descriptors belong to the requests in flight. -/
structure Chains (blockno : B → ℕ) (s : State P B) : Prop where
  chained : ∀ p r x, (s.pc p).flight = some (r, x) → Chained blockno s r x
  apart : ∀ p q r x r' x' i, (s.pc p).flight = some (r, x) → (s.pc q).flight = some (r', x') →
    i ∈ x.toList → i ∈ x'.toList → p = q
  owned : ∀ i, s.free i = false → ∃ p r x, (s.pc p).flight = some (r, x) ∧ i ∈ x.toList
  buffers : ∀ p q r r', (s.pc p).request = some r → (s.pc q).request = some r' →
    r.b = r'.b → p = q

/-- The chain heads between the publishing of a request and its processing by the
interrupt handler. -/
def State.pending (s : State P B) : List ℕ := s.unreadAvail ++ s.dev.outstanding ++ s.unreadUsed

/-- A chain head of a published request whose buffer is still marked. -/
def State.Marked (s : State P B) (h : ℕ) : Prop :=
  ∃ p r x, s.pc p = .wait r x ∧ x.head = h ∧ s.onDisk r.b = true

/-- The rings hold the published requests. -/
structure Rings (s : State P B) : Prop where
  seen_lt : s.dev.seen < idxMod
  avail_lt : s.avail.idx < idxMod
  usedIdx_lt : s.usedIdx < idxMod
  used_lt : s.used.idx < idxMod
  nodup : s.pending.Nodup
  marked : ∀ h, h ∈ s.pending ↔ s.Marked h
  status : ∀ h ∈ s.unreadUsed, (s.info h).status = 0
  publishing : ∀ p r x, s.pc p = .publish r x →
    s.lock = some (.proc p) ∧ s.onDisk r.b = true ∧ s.avail.ring (s.avail.idx % num) = x.head

/-- A process sleeps only on what it waits for. -/
structure Sleepers (s : State P B) : Prop where
  free : ∀ p, s.asleep p = some .free → (∃ r, s.pc p = .enter r) ∧ s.freeCount < 3
  buf : ∀ p b, s.asleep p = some (.buf b) →
    s.onDisk b = true ∧ ∃ r x, s.pc p = .wait r x ∧ r.b = b

/-- The invariant of the driver. -/
structure Inv (blockno : B → ℕ) (s : State P B) : Prop where
  running : s.panicked = none
  chains : Chains blockno s
  rings : Rings s
  sleepers : Sleepers s

/-- A call in flight has a request. -/
theorem Pc.flight_request {c : Pc B} (h : c.flight = some (r, x)) :
    c.request = some r := by
  cases c <;> simp_all [Pc.flight, Pc.request]

/-! ### What a step does -/

/-- The steps, with the states that the functions of the driver leave when they do not
panic. -/
inductive Move [DecidableEq P] [DecidableEq B] (blockno : B → ℕ) (s : State P B) :
    Act P B → State P B → Prop
  | call {p : P} {b : B} {write : Bool} (hpc : s.pc p = .outside)
      (hb : ∀ q r, (s.pc q).request = some r → r.b ≠ b) :
      Move blockno s (.call p b write) { s with
        pc := update s.pc p (.enter ⟨b, write, s.hist.calls⟩)
        hist := { s.hist with calls := s.hist.calls + 1 } }
  | allocated {p : P} {r : Request B} {x : Triple} (hpc : s.pc p = .enter r)
      (hlock : s.lock = none) (hawake : s.asleep p = none) (hnodup : x.toList.Nodup)
      (hfree : ∀ i ∈ x.toList, i < num ∧ s.free i = true) :
      Move blockno s (.alloc p)
        { format blockno r x { s with free := takeAll x.toList s.free } with
          lock := some (.proc p), pc := update s.pc p (.publish r x) }
  | shortage {p : P} {r : Request B} {t : State P B} (hpc : s.pc p = .enter r)
      (hlock : s.lock = none) (hcount : s.freeCount < 3) (hundone : Undone s t) :
      Move blockno s (.alloc p) { t with asleep := update t.asleep p (some .free) }
  | publish {p : P} {r : Request B} {x : Triple} (hpc : s.pc p = .publish r x) :
      Move blockno s (.publish p) (rwPublish p r x s)
  | sleep {p : P} {r : Request B} {x : Triple} (hpc : s.pc p = .wait r x)
      (hlock : s.lock = none ∨ s.lock = some (.proc p)) (hdisk : s.onDisk r.b = true) :
      Move blockno s (.wait p) { s with
        lock := none, asleep := update s.asleep p (some (.buf r.b)) }
  | finish {p : P} {r : Request B} {x : Triple} (hpc : s.pc p = .wait r x)
      (hlock : s.lock = none ∨ s.lock = some (.proc p)) (hawake : s.asleep p = none)
      (hdisk : s.onDisk r.b = false) :
      Move blockno s (.wait p) { s with
        info := update s.info x.head { s.info x.head with b := none }
        desc := clearAll x.toList s.desc
        free := giveAll x.toList s.free
        asleep := woken .free s.asleep
        lock := none
        pc := update s.pc p .outside
        hist := { s.hist with returned := s.hist.returned ++ [r] } }
  | intrEnter (hlock : s.lock = none) :
      Move blockno s .intrEnter { s with lock := some .intr }
  | intrExit (hlock : s.lock = some .intr) : Move blockno s .intrLoop { s with lock := none }
  | process {b : B} (hnew : s.usedIdx ≠ s.used.idx) (hlock : s.lock = some .intr)
      (hb : (s.info (s.used.ring (s.usedIdx % num))).b = some b) :
      Move blockno s .intrLoop { s with
        onDisk := update s.onDisk b false
        usedIdx := (s.usedIdx + 1) % idxMod
        asleep := woken (.buf b) s.asleep }
  | take (hnew : s.dev.seen ≠ s.avail.idx) : Move blockno s .take (devTake s)
  | complete {h : ℕ} (hh : h ∈ s.dev.outstanding) :
      Move blockno s (.complete h) (devComplete h s)
  | wake {p : P} :
      Move blockno s (.wake p) { s with asleep := update s.asleep p none }

theorem num_dvd_idxMod : num ∣ idxMod := by decide

/-- The oldest unread entry of the used ring. -/
theorem Rings.unreadUsed_cons (h : Rings s) (hnew : s.usedIdx ≠ s.used.idx) :
    s.unreadUsed = s.used.ring (s.usedIdx % num) ::
      Ring.contents num s.used.ring (Ring.next idxMod s.usedIdx)
        (Ring.used idxMod (Ring.next idxMod s.usedIdx) s.used.idx) := by
  rw [State.unreadUsed, ← Ring.used_pop h.usedIdx_lt h.used_lt hnew,
    Ring.contents_pop num_dvd_idxMod]

/-- The oldest unread entry of the avail ring. -/
theorem Rings.unreadAvail_cons (h : Rings s) (hnew : s.dev.seen ≠ s.avail.idx) :
    s.unreadAvail = s.avail.ring (s.dev.seen % num) ::
      Ring.contents num s.avail.ring (Ring.next idxMod s.dev.seen)
        (Ring.used idxMod (Ring.next idxMod s.dev.seen) s.avail.idx) := by
  rw [State.unreadAvail, ← Ring.used_pop h.seen_lt h.avail_lt hnew,
    Ring.contents_pop num_dvd_idxMod]

/-- An unread entry of the used ring names the chain of a waiting call, whose buffer
`disk.info` records and whose status the device has written. -/
theorem Inv.unreadUsed_owner (h : Inv blockno s) {id : ℕ}
    (hid : id ∈ s.unreadUsed) : ∃ p r x, s.pc p = .wait r x ∧ x.head = id ∧
      s.onDisk r.b = true ∧ (s.info id).b = some r.b ∧ (s.info id).status = 0 := by
  have hpending : id ∈ s.pending := List.mem_append_right _ hid
  obtain ⟨p, r, x, hpc, rfl, hdisk⟩ := (h.rings.marked id).mp hpending
  have hchain := h.chains.chained p r x (by rw [hpc]; rfl)
  exact ⟨p, r, x, hpc, rfl, hdisk, hchain.buf, h.rings.status _ hid⟩

/-- No step from a state of the invariant panics. -/
theorem Inv.move [DecidableEq P] [DecidableEq B]
    (h : Inv blockno s) (hstep : Step blockno a s s') : Move blockno s a s' := by
  cases hstep with
  | call _ hpc hb => exact .call hpc hb
  | @alloc _ p r _ hpc hawake hlock =>
    obtain ⟨x, hnodup, hfree, halloc⟩ | ⟨hcount, t, hundone, halloc⟩ := alloc3Desc_cases s
    · rw [rwAlloc, halloc]
      exact .allocated hpc hlock hawake hnodup hfree
    · rw [rwAlloc, halloc]
      exact .shortage hpc hlock hcount hundone
  | publish _ hpc => exact .publish hpc
  | @wait _ p r x _ hpc hawake hlock =>
    cases hdisk : s.onDisk r.b with
    | true =>
      rw [rwWait, if_pos hdisk]
      exact .sleep hpc hlock hdisk
    | false =>
      have hchain := h.chains.chained p r x (by rw [hpc]; rfl)
      rw [rwWait, if_neg (by simp [hdisk])]
      simp only
      have hfreed := freeChain_eq (s := { s with
        info := update s.info x.head { s.info x.head with b := none } })
        hchain.nodup hchain.taken hchain.head hchain.body hchain.tail
      rw [hfreed]
      exact .finish hpc hlock hawake hdisk
  | intrEnter _ hlock => exact .intrEnter hlock
  | intrLoop _ hlock =>
    by_cases hnew : s.usedIdx = s.used.idx
    · rw [intrLoop, if_pos hnew]
      exact .intrExit hlock
    · obtain ⟨p, r, x, hpc, hhead, hdisk, hb, hstatus⟩ :=
        h.unreadUsed_owner (h.rings.unreadUsed_cons hnew ▸ List.mem_cons_self)
      rw [intrLoop, if_neg hnew]
      simp only [hstatus, hb, ne_eq, not_true_eq_false, if_false]
      exact .process hnew hlock hb
  | take _ hnew => exact .take hnew
  | complete _ hh => exact .complete hh
  | wake _ => exact .wake

/-! ### Chains -/

/-- A chain stands as long as nothing of it is written. -/
theorem Chained.frame (h : Chained blockno s r x)
    (hfree : ∀ i ∈ x.toList, s'.free i = s.free i) (hdesc : ∀ i ∈ x.toList, s'.desc i = s.desc i)
    (hops : s'.ops x.head = s.ops x.head) (hinfo : (s'.info x.head).b = (s.info x.head).b)
    (hticket : s'.hist.ticket x.head = s.hist.ticket x.head) : Chained blockno s' r x where
  nodup := h.nodup
  taken i hi := ⟨(h.taken i hi).1, by rw [hfree i hi, (h.taken i hi).2]⟩
  head := by rw [hdesc _ (by simp [Triple.toList]), h.head]
  body := by rw [hdesc _ (by simp [Triple.toList]), h.body]
  tail := by rw [hdesc _ (by simp [Triple.toList]), h.tail]
  op := by rw [hops, h.op]
  buf := by rw [hinfo, h.buf]
  ticket := by rw [hticket, h.ticket]

/-- A step that keeps the calls where they are and writes only free descriptors keeps the
chains. -/
theorem Chains.frame (h : Chains blockno s)
    (hflight : ∀ p, (s'.pc p).flight = (s.pc p).flight)
    (hrequest : ∀ p, (s'.pc p).request = (s.pc p).request) (hfree : s'.free = s.free)
    (hdesc : ∀ i, s.free i = false → s'.desc i = s.desc i) (hops : s'.ops = s.ops)
    (hinfo : ∀ i, (s'.info i).b = (s.info i).b) (hticket : s'.hist.ticket = s.hist.ticket) :
    Chains blockno s' := by
  refine ⟨fun p r x hp => ?_, fun p q r x r' x' i hp hq => ?_, fun i hi => ?_,
    fun p q r r' hp hq => ?_⟩
  · have hchain := h.chained p r x (hflight p ▸ hp)
    exact hchain.frame (fun i _ => by rw [hfree]) (fun i hi => hdesc i (hchain.taken i hi).2)
      (by rw [hops]) (hinfo _) (by rw [hticket])
  · rw [hflight] at hp hq
    exact h.apart p q r x r' x' i hp hq
  · obtain ⟨p, r, x, hp, hx⟩ := h.owned i (hfree ▸ hi)
    exact ⟨p, r, x, by rw [hflight, hp], hx⟩
  · rw [hrequest] at hp hq
    exact h.buffers p q r r' hp hq

/-- Entering `virtio_disk_rw`. -/
theorem Chains.call [DecidableEq P] {b : B} {write : Bool}
    {hist : History B} (h : Chains blockno s) (hpc : s.pc p = .outside)
    (hb : ∀ q r, (s.pc q).request = some r → r.b ≠ b) (hticket : hist.ticket = s.hist.ticket) :
    Chains blockno { s with
      pc := update s.pc p (.enter ⟨b, write, s.hist.calls⟩), hist := hist } := by
  have hflight : ∀ q, (update s.pc p (.enter ⟨b, write, s.hist.calls⟩) q).flight =
      (s.pc q).flight := by
    intro q
    by_cases hq : q = p
    · subst hq; rw [update_self, hpc]; rfl
    · rw [update_of_ne hq]
  refine ⟨fun q r x hq => ?_, fun q q' r x r' x' i hq hq' => ?_, fun i hi => ?_,
    fun q q' r r' hq hq' heq => ?_⟩
  · exact (h.chained q r x (hflight q ▸ hq)).frame (fun _ _ => rfl) (fun _ _ => rfl) rfl rfl
      (by rw [hticket])
  · exact h.apart q q' r x r' x' i (hflight q ▸ hq) (hflight q' ▸ hq')
  · obtain ⟨q, r, x, hq, hx⟩ := h.owned i hi
    exact ⟨q, r, x, (hflight q).trans hq, hx⟩
  · -- The buffer of the new call is not the buffer of an older one.
    by_cases hqp : q = p <;> by_cases hqp' : q' = p
    · rw [hqp, hqp']
    · subst hqp
      simp only [update_self, update_of_ne hqp'] at hq hq'
      cases hq
      exact absurd heq.symm (hb q' r' hq')
    · subst hqp'
      simp only [update_self, update_of_ne hqp] at hq hq'
      cases hq'
      exact absurd heq (hb q r hq)
    · simp only [update_of_ne hqp, update_of_ne hqp'] at hq hq'
      exact h.buffers q q' r r' hq hq' heq

/-- The chain that a call formats on free descriptors. -/
theorem chained_format [DecidableEq B]
    (hnodup : x.toList.Nodup) (hfree : ∀ i ∈ x.toList, i < num ∧ s.free i = true) :
    Chained blockno (format blockno r x { s with free := takeAll x.toList s.free }) r x := by
  obtain ⟨⟨hhb, hht⟩, hbt⟩ : (x.head ≠ x.body ∧ x.head ≠ x.tail) ∧ x.body ≠ x.tail := by
    simpa [Triple.toList] using hnodup
  exact
    { nodup := hnodup
      taken := fun i hi => ⟨(hfree i hi).1, by simp [format, takeAll, hi]⟩
      head := by simp [format, hhb, hht]
      body := by simp [format, hbt]
      tail := by simp [format]
      op := by simp [format]
      buf := by simp [format]
      ticket := by simp [format] }

/-- Formatting a chain on free descriptors. -/
theorem Chains.allocated [DecidableEq P] [DecidableEq B] (h : Chains blockno s)
    (hpc : s.pc p = .enter r) (hnodup : x.toList.Nodup)
    (hfree : ∀ i ∈ x.toList, i < num ∧ s.free i = true) (lock : Option (Agent P)) :
    Chains blockno { format blockno r x { s with free := takeAll x.toList s.free } with
      lock := lock, pc := update s.pc p (.publish r x) } := by
  have hnew : Chained blockno
      (format blockno r x { s with free := takeAll x.toList s.free }) r x :=
    chained_format hnodup hfree
  -- A chain in flight has none of the descriptors that were free.
  have hold : ∀ q r' x', (s.pc q).flight = some (r', x') → ∀ i ∈ x'.toList, i ∉ x.toList := by
    intro q r' x' hq i hi hx
    have hused := ((h.chained q r' x' hq).taken i hi).2
    rw [(hfree i hx).2] at hused
    cases hused
  have hrequest : ∀ q, (update s.pc p (.publish r x) q).request = (s.pc q).request := by
    intro q
    by_cases hq : q = p
    · subst hq; rw [update_self, hpc]; rfl
    · rw [update_of_ne hq]
  refine ⟨fun q r' x' hq => ?_, fun q q' r1 x1 r2 x2 i hq hq' hi hi' => ?_, fun i hi => ?_,
    fun q q' r1 r2 hq hq' => ?_⟩
  · by_cases hqp : q = p
    · subst hqp
      simp only [update_self, Pc.flight] at hq
      cases hq
      exact hnew.frame (fun _ _ => rfl) (fun _ _ => rfl) rfl rfl rfl
    · simp only [update_of_ne hqp] at hq
      have hhead : x'.head ∉ x.toList := hold q r' x' hq _ (by simp [Triple.toList])
      have hne : x'.head ≠ x.head := fun heq => hhead (by simp [Triple.toList, heq])
      refine (h.chained q r' x' hq).frame (fun i hi => ?_) (fun i hi => ?_) ?_ ?_ ?_
      · simp [format, takeAll, hold q r' x' hq i hi]
      · obtain ⟨hh, hb, ht⟩ : i ≠ x.head ∧ i ≠ x.body ∧ i ≠ x.tail := by
          simpa [Triple.toList] using hold q r' x' hq i hi
        simp [format, hh, hb, ht]
      · simp [format, hne]
      · simp [format, hne]
      · simp [format, hne]
  · by_cases hqp : q = p <;> by_cases hqp' : q' = p
    · rw [hqp, hqp']
    · subst hqp
      simp only [update_self, update_of_ne hqp', Pc.flight] at hq hq'
      cases hq
      exact absurd hi (hold q' r2 x2 hq' i hi')
    · subst hqp'
      simp only [update_self, update_of_ne hqp, Pc.flight] at hq hq'
      cases hq'
      exact absurd hi' (hold q r1 x1 hq i hi)
    · simp only [update_of_ne hqp, update_of_ne hqp'] at hq hq'
      exact h.apart q q' r1 x1 r2 x2 i hq hq' hi hi'
  · by_cases hx : i ∈ x.toList
    · exact ⟨p, r, x, by simp [Pc.flight], hx⟩
    · obtain ⟨q, r', x', hq, hi'⟩ := h.owned i (by simpa [format, takeAll, hx] using hi)
      have hqp : q ≠ p := by
        rintro rfl
        rw [hpc] at hq
        cases hq
      exact ⟨q, r', x', by simpa [update_of_ne hqp] using hq, hi'⟩
  · exact h.buffers q q' r1 r2 ((hrequest q).symm.trans hq) ((hrequest q').symm.trans hq')

/-- Freeing the chain of a call that returns. -/
theorem Chains.finish [DecidableEq P]
    (h : Chains blockno s) (hpc : s.pc p = .wait r x) (hist : History B)
    (hticket : hist.ticket = s.hist.ticket)
    (lock : Option (Agent P)) (asleep : P → Option (Chan B)) :
    Chains blockno { s with
      info := update s.info x.head { s.info x.head with b := none }
      desc := clearAll x.toList s.desc
      free := giveAll x.toList s.free
      asleep := asleep
      lock := lock
      pc := update s.pc p .outside
      hist := hist } := by
  have hflight : (s.pc p).flight = some (r, x) := by rw [hpc]; rfl
  -- Every other chain in flight has other descriptors.
  have hother : ∀ q r' x', q ≠ p → (s.pc q).flight = some (r', x') →
      ∀ i ∈ x'.toList, i ∉ x.toList :=
    fun q r' x' hqp hq i hi hx => hqp (h.apart q p r' x' r x i hq hflight hi hx)
  have hback : ∀ q, q ≠ p → update s.pc p .outside q = s.pc q :=
    fun q hq => update_of_ne hq _ _
  have hne : ∀ q r', (update s.pc p .outside q).request = some r' → q ≠ p := by
    rintro q r' hq rfl
    rw [update_self] at hq
    cases hq
  refine ⟨fun q r' x' hq => ?_, fun q q' r1 x1 r2 x2 i hq hq' => ?_, fun i hi => ?_,
    fun q q' r1 r2 hq hq' => ?_⟩
  · have hqp := hne q r' (Pc.flight_request hq)
    simp only [hback q hqp] at hq
    have hnot := hother q r' x' hqp hq
    have hhead : x'.head ≠ x.head := by
      intro heq
      exact hnot x'.head (by simp [Triple.toList]) (by simp [Triple.toList, heq])
    refine (h.chained q r' x' hq).frame (fun i hi => ?_) (fun i hi => ?_) rfl ?_ ?_
    · simp [giveAll, hnot i hi]
    · exact clearAll_of_not_mem (hnot i hi) _
    · simp [hhead]
    · rw [hticket]
  · have hqp := hne q r1 (Pc.flight_request hq)
    have hqp' := hne q' r2 (Pc.flight_request hq')
    simp only [hback q hqp, hback q' hqp'] at hq hq'
    exact h.apart q q' r1 x1 r2 x2 i hq hq'
  · have hx : i ∉ x.toList ∧ s.free i = false := by simpa [giveAll] using hi
    obtain ⟨q, r', x', hq, hi'⟩ := h.owned i hx.2
    have hqp : q ≠ p := by
      rintro rfl
      rw [hflight] at hq
      cases hq
      exact hx.1 hi'
    exact ⟨q, r', x', by simpa only [hback q hqp] using hq, hi'⟩
  · have hqp := hne q r1 hq
    have hqp' := hne q' r2 hq'
    simp only [hback q hqp, hback q' hqp'] at hq hq'
    exact h.buffers q q' r1 r2 hq hq'

/-! ### Rings -/

/-- A head that is pending is a descriptor in use. -/
theorem Inv.pending_taken (h : Inv blockno s) {i : ℕ} (hi : i ∈ s.pending) :
    i < num ∧ s.free i = false := by
  obtain ⟨p, r, x, hpc, rfl, -⟩ := (h.rings.marked i).mp hi
  exact (h.chains.chained p r x (by rw [hpc]; rfl)).taken _ (by simp [Triple.toList])

/-- There are at most as many pending heads as descriptors. -/
theorem Inv.length_pending (h : Inv blockno s) : s.pending.length ≤ num := by
  have hsub : s.pending ⊆ List.range num :=
    fun i hi => List.mem_range.mpr (h.pending_taken hi).1
  simpa using (h.rings.nodup.subperm hsub).length_le

/-- A descriptor that is no pending head leaves room in the rings. -/
theorem Inv.pending_lt (h : Inv blockno s) {i : ℕ} (hi : i < num)
    (hnot : i ∉ s.pending) : s.pending.length < num := by
  have hsub : i :: s.pending ⊆ List.range num := by
    rintro k (_ | ⟨_, hk⟩)
    · exact List.mem_range.mpr hi
    · exact List.mem_range.mpr (h.pending_taken hk).1
  have hlen := ((List.nodup_cons.mpr ⟨hnot, h.rings.nodup⟩).subperm hsub).length_le
  rwa [List.length_range, List.length_cons] at hlen

theorem length_unreadAvail (s : State P B) :
    s.unreadAvail.length = Ring.used idxMod s.dev.seen s.avail.idx := Ring.length_contents ..

theorem length_unreadUsed (s : State P B) :
    s.unreadUsed.length = Ring.used idxMod s.usedIdx s.used.idx := Ring.length_contents ..

/-- Where the requests are. -/
theorem length_pending_eq (s : State P B) : s.pending.length =
    s.unreadAvail.length + s.dev.outstanding.length + s.unreadUsed.length := by
  rw [State.pending, List.length_append, List.length_append]

/-- A step that touches neither ring nor a published call. -/
theorem Rings.frame (h : Rings s) (havail : s'.avail = s.avail)
    (hused : s'.used = s.used) (husedIdx : s'.usedIdx = s.usedIdx) (hdev : s'.dev = s.dev)
    (hmarked : ∀ i, s'.Marked i ↔ s.Marked i)
    (hstatus : ∀ i, (s'.info i).status = (s.info i).status)
    (hpublishing : ∀ p r x, s'.pc p = .publish r x →
      s.pc p = .publish r x ∧ s'.lock = s.lock ∧ s'.onDisk = s.onDisk) : Rings s' := by
  have hunreadAvail : s'.unreadAvail = s.unreadAvail := by
    rw [State.unreadAvail, State.unreadAvail, havail, hdev]
  have hunreadUsed : s'.unreadUsed = s.unreadUsed := by
    rw [State.unreadUsed, State.unreadUsed, hused, husedIdx]
  have hpending : s'.pending = s.pending := by
    rw [State.pending, State.pending, hunreadAvail, hunreadUsed, hdev]
  exact
    { seen_lt := by rw [hdev]; exact h.seen_lt
      avail_lt := by rw [havail]; exact h.avail_lt
      usedIdx_lt := by rw [husedIdx]; exact h.usedIdx_lt
      used_lt := by rw [hused]; exact h.used_lt
      nodup := by rw [hpending]; exact h.nodup
      marked := fun i => by rw [hpending, hmarked]; exact h.marked i
      status := fun i hi => by rw [hstatus]; exact h.status i (hunreadUsed ▸ hi)
      publishing := fun p r x hp => by
        obtain ⟨hpc, hlock, hdisk⟩ := hpublishing p r x hp
        rw [hlock, hdisk, havail]
        exact h.publishing p r x hpc }

/-- The marked heads do not depend on a call that is not waiting. -/
theorem marked_update [DecidableEq P] {c : Pc B}
    (hpc : s'.pc = update s.pc p c) (hdisk : s'.onDisk = s.onDisk)
    (hold : ∀ r x, s.pc p = .wait r x → s.onDisk r.b = false) (hnew : ∀ r x, c ≠ .wait r x)
    (i : ℕ) : s'.Marked i ↔ s.Marked i := by
  unfold State.Marked
  rw [hpc, hdisk]
  constructor
  · rintro ⟨q, r, x, hq, hx, hr⟩
    by_cases hqp : q = p
    · subst hqp
      rw [update_self] at hq
      exact absurd hq (hnew r x)
    · rw [update_of_ne hqp] at hq
      exact ⟨q, r, x, hq, hx, hr⟩
  · rintro ⟨q, r, x, hq, hx, hr⟩
    have hqp : q ≠ p := by
      rintro rfl
      rw [hold r x hq] at hr
      cases hr
    exact ⟨q, r, x, by rw [update_of_ne hqp, hq], hx, hr⟩

/-- While a process is about to publish, nobody else has the lock. -/
theorem Rings.not_publishing (h : Rings s) {lock : Option (Agent P)}
    (hlock : s.lock = lock) (hne : lock ≠ some (.proc p)) (r : Request B) (x : Triple) :
    s.pc p ≠ .publish r x := by
  intro hp
  exact hne (hlock ▸ (h.publishing p r x hp).1)

section Rings

variable (h : Inv blockno s)

include h

/-- Storing a chain head in the avail ring overwrites no unread entry. -/
theorem Inv.unreadAvail_format [DecidableEq B]
    (hfree : ∀ i ∈ x.toList, i < num ∧ s.free i = true)
    (hx : x.head ∉ s.pending) :
    (format blockno r x { s with free := takeAll x.toList s.free }).unreadAvail =
      s.unreadAvail := by
  have hlt := h.pending_lt (hfree x.head (by simp [Triple.toList])).1 hx
  have hlen : Ring.used idxMod s.dev.seen s.avail.idx < num := by
    have := length_pending_eq s
    have := length_unreadAvail s
    omega
  exact Ring.contents_store num_dvd_idxMod (Ring.add_used h.rings.seen_lt h.rings.avail_lt) hlen _

/-- A chain is built. -/
theorem Inv.rings_allocated [DecidableEq P] [DecidableEq B]
    (hpc : s.pc p = .enter r)
    (hlock : s.lock = none)
    (hfree : ∀ i ∈ x.toList, i < num ∧ s.free i = true) :
    Rings { format blockno r x { s with free := takeAll x.toList s.free } with
      lock := some (.proc p), pc := update s.pc p (.publish r x) } := by
  have hxfree := hfree x.head (by simp [Triple.toList])
  have hx : x.head ∉ s.pending := by
    intro hx
    have := (h.pending_taken hx).2
    rw [hxfree.2] at this
    cases this
  have havail := h.unreadAvail_format (r := r) hfree hx
  have hpending : State.pending { format blockno r x
      { s with free := takeAll x.toList s.free } with
      lock := some (.proc p), pc := update s.pc p (.publish r x) } = s.pending :=
    congrArg (fun l => l ++ s.dev.outstanding ++ s.unreadUsed) havail
  refine ⟨h.rings.seen_lt, h.rings.avail_lt, h.rings.usedIdx_lt, h.rings.used_lt,
    hpending ▸ h.rings.nodup, fun i => ?_, fun i hi => ?_, fun q r' x' hq => ?_⟩
  · rw [hpending, h.rings.marked i]
    unfold State.Marked
    constructor
    · rintro ⟨q, r', x', hq, hx', hdisk⟩
      have hqp : q ≠ p := by
        rintro rfl
        rw [hpc] at hq
        cases hq
      refine ⟨q, r', x', by simpa [update_of_ne hqp] using hq, hx', ?_⟩
      by_cases hb : r'.b = r.b
      · simp [format, hb]
      · simpa [format, hb] using hdisk
    · rintro ⟨q, r', x', hq, hx', hdisk⟩
      have hqp : q ≠ p := by
        rintro rfl
        simp at hq
      simp only [update_of_ne hqp] at hq
      refine ⟨q, r', x', hq, hx', ?_⟩
      -- A waiting call has another buffer than this one.
      have hb : r'.b ≠ r.b := fun hb =>
        hqp (h.chains.buffers q p r' r (by rw [hq]; rfl) (by rw [hpc]; rfl) hb)
      simpa [format, hb] using hdisk
  · have hne : i ≠ x.head := by
      rintro rfl
      exact hx (List.mem_append_right _ hi)
    simpa [format, hne] using h.rings.status i hi
  · by_cases hqp : q = p
    · subst hqp
      simp only [update_self, Pc.publish.injEq] at hq
      obtain ⟨rfl, rfl⟩ := hq
      exact ⟨rfl, by simp [format], by simp [format]⟩
    · simp only [update_of_ne hqp] at hq
      exact absurd hq (h.rings.not_publishing hlock (by simp) r' x')

/-- Incrementing `avail->idx` appends the stored head to the unread entries. -/
theorem Inv.unreadAvail_publish [DecidableEq P] (hpc : s.pc p = .publish r x)
    (hx : x.head ∉ s.pending) :
    (rwPublish p r x s).unreadAvail = s.unreadAvail ++ [x.head] := by
  have hchain := h.chains.chained p r x (by rw [hpc]; rfl)
  have hlt := h.pending_lt (hchain.taken x.head (by simp [Triple.toList])).1 hx
  have hlen : Ring.used idxMod s.dev.seen s.avail.idx < num := by
    have := length_pending_eq s
    have := length_unreadAvail s
    omega
  have hnum : num < idxMod := by decide
  have hpush := Ring.used_push h.rings.seen_lt h.rings.avail_lt (by omega)
  have hstored := (h.rings.publishing p r x hpc).2.2
  change Ring.contents num s.avail.ring s.dev.seen
    (Ring.used idxMod s.dev.seen (Ring.next idxMod s.avail.idx)) = _
  rw [hpush, Ring.contents_succ num_dvd_idxMod (Ring.add_used h.rings.seen_lt h.rings.avail_lt),
    hstored]
  rfl

/-- The head of a chain that is not published yet is not pending. -/
theorem Inv.publishing_not_pending (hpc : s.pc p = .publish r x) : x.head ∉ s.pending := by
  intro hx
  obtain ⟨q, r', x', hq, heq, -⟩ := (h.rings.marked _).mp hx
  have hqp : q = p := h.chains.apart q p r' x' r x x.head (by rw [hq]; rfl) (by rw [hpc]; rfl)
    (by simp [Triple.toList, heq]) (by simp [Triple.toList])
  rw [hqp, hpc] at hq
  cases hq

/-- A chain is published. -/
theorem Inv.rings_publish [DecidableEq P] (hpc : s.pc p = .publish r x) :
    Rings (rwPublish p r x s) := by
  have hx := h.publishing_not_pending hpc
  have havail := h.unreadAvail_publish hpc hx
  have hperm : (rwPublish p r x s).pending.Perm (x.head :: s.pending) := by
    have heq : (rwPublish p r x s).pending =
        s.unreadAvail ++ [x.head] ++ s.dev.outstanding ++ s.unreadUsed :=
      congrArg (fun l => l ++ s.dev.outstanding ++ s.unreadUsed) havail
    rw [heq, State.pending]
    simp
  obtain ⟨hlock, hdisk, -⟩ := h.rings.publishing p r x hpc
  refine ⟨h.rings.seen_lt, Nat.mod_lt _ (by decide), h.rings.usedIdx_lt, h.rings.used_lt,
    hperm.nodup_iff.mpr (List.nodup_cons.mpr ⟨hx, h.rings.nodup⟩), fun i => ?_,
    h.rings.status, fun q r' x' hq => ?_⟩
  · rw [hperm.mem_iff, List.mem_cons, h.rings.marked i]
    unfold State.Marked
    constructor
    · rintro (rfl | ⟨q, r', x', hq, hx', hdisk'⟩)
      · exact ⟨p, r, x, by simp [rwPublish], rfl, hdisk⟩
      · have hqp : q ≠ p := by
          rintro rfl
          rw [hpc] at hq
          cases hq
        exact ⟨q, r', x', by simpa [rwPublish, update_of_ne hqp] using hq, hx', hdisk'⟩
    · rintro ⟨q, r', x', hq, hx', hdisk'⟩
      by_cases hqp : q = p
      · subst hqp
        simp only [rwPublish, update_self, Pc.wait.injEq] at hq
        exact .inl (by rw [← hx', hq.2])
      · simp only [rwPublish, update_of_ne hqp] at hq
        exact .inr ⟨q, r', x', hq, hx', hdisk'⟩
  · by_cases hqp : q = p
    · subst hqp
      simp [rwPublish] at hq
    · simp only [rwPublish, update_of_ne hqp] at hq
      refine absurd hq (h.rings.not_publishing hlock ?_ r' x')
      simpa using fun heq => hqp heq.symm

/-- The driver reads the used ring. -/
theorem Inv.rings_process [DecidableEq B] {b : B}
    (hnew : s.usedIdx ≠ s.used.idx) (hlock : s.lock = some .intr)
    (hb : (s.info (s.used.ring (s.usedIdx % num))).b = some b)
    (asleep : P → Option (Chan B)) :
    Rings { s with
      onDisk := update s.onDisk b false
      usedIdx := (s.usedIdx + 1) % idxMod
      asleep := asleep } := by
  have hcons := h.rings.unreadUsed_cons hnew
  obtain ⟨p, r, x, hpc, hhead, hdisk, hbuf, -⟩ :=
    h.unreadUsed_owner (hcons ▸ List.mem_cons_self)
  rw [hb] at hbuf
  cases hbuf
  have hperm : s.pending.Perm (x.head :: State.pending { s with
      onDisk := update s.onDisk r.b false
      usedIdx := (s.usedIdx + 1) % idxMod
      asleep := asleep }) := by
    rw [State.pending, hcons, hhead]
    exact List.perm_middle
  have hnodup := List.nodup_cons.mp (hperm.nodup_iff.mp h.rings.nodup)
  refine ⟨h.rings.seen_lt, h.rings.avail_lt, Nat.mod_lt _ (by decide), h.rings.used_lt,
    hnodup.2, fun i => ?_, fun i hi => ?_, fun q r' x' hq => ?_⟩
  · constructor
    · intro hi
      obtain ⟨q, r', x', hq, hx', hdisk'⟩ :=
        (h.rings.marked i).mp (hperm.mem_iff.mpr (List.mem_cons_of_mem _ hi))
      refine ⟨q, r', x', hq, hx', ?_⟩
      have hne : r'.b ≠ r.b := by
        intro heq
        have hqp := h.chains.buffers q p r' r (by rw [hq]; rfl) (by rw [hpc]; rfl) heq
        subst hqp
        rw [hpc] at hq
        cases hq
        exact hnodup.1 (hx' ▸ hi)
      simpa [hne] using hdisk'
    · rintro ⟨q, r', x', hq, hx', hdisk'⟩
      have hne : r'.b ≠ r.b := by
        intro heq
        simp [heq] at hdisk'
      have hmem : i ∈ s.pending :=
        (h.rings.marked i).mpr ⟨q, r', x', hq, hx', by simpa [hne] using hdisk'⟩
      rcases List.mem_cons.mp (hperm.mem_iff.mp hmem) with rfl | hi
      · -- The processed head belongs to one call only.
        have hqp := h.chains.apart q p r' x' r x x.head (by rw [hq]; rfl) (by rw [hpc]; rfl)
          (by simp [Triple.toList, hx']) (by simp [Triple.toList])
        subst hqp
        rw [hpc] at hq
        cases hq
        exact absurd rfl hne
      · exact hi
  · exact h.rings.status i (hcons ▸ List.mem_cons_of_mem _ hi)
  · exact absurd hq (h.rings.not_publishing hlock (by simp) r' x')

/-- The device takes a chain. -/
theorem Inv.rings_take (hnew : s.dev.seen ≠ s.avail.idx) :
    Rings (devTake s) := by
  have hcons := h.rings.unreadAvail_cons hnew
  have hperm : s.pending.Perm (devTake s).pending := by
    rw [State.pending, hcons]
    exact (List.perm_middle.symm).append_right _
  exact
    { seen_lt := Nat.mod_lt _ (by decide)
      avail_lt := h.rings.avail_lt
      usedIdx_lt := h.rings.usedIdx_lt
      used_lt := h.rings.used_lt
      nodup := hperm.nodup_iff.mp h.rings.nodup
      marked := fun i => hperm.mem_iff.symm.trans (h.rings.marked i)
      status := h.rings.status
      publishing := h.rings.publishing }

/-- A used entry that the device appends overwrites no unread entry. -/
theorem Inv.unreadUsed_complete {i : ℕ}
    (hi : i ∈ s.dev.outstanding) : (devComplete i s).unreadUsed = s.unreadUsed ++ [i] := by
  have hlen : Ring.used idxMod s.usedIdx s.used.idx < num := by
    have := length_pending_eq s
    have := length_unreadUsed s
    have := h.length_pending
    have := List.length_pos_of_mem hi
    omega
  have hnum : num < idxMod := by decide
  have hpush := Ring.used_push h.rings.usedIdx_lt h.rings.used_lt (by omega)
  change Ring.contents num (update s.used.ring (s.used.idx % num) i) s.usedIdx
    (Ring.used idxMod s.usedIdx (Ring.next idxMod s.used.idx)) = _
  rw [hpush, Ring.contents_push num_dvd_idxMod
    (Ring.add_used h.rings.usedIdx_lt h.rings.used_lt) hlen]
  rfl

/-- The device writes nothing of `disk.info` but the status of the chain it finishes. -/
theorem Inv.info_complete {i : ℕ}
    (hi : i ∈ s.dev.outstanding) :
    (devComplete i s).info = update s.info i { s.info i with status := 0 } := by
  have hpending : i ∈ s.pending :=
    List.mem_append_left _ (List.mem_append_right _ hi)
  obtain ⟨p, r, x, hpc, rfl, -⟩ := (h.rings.marked i).mp hpending
  exact (h.chains.chained p r x (by rw [hpc]; rfl)).writeStatus

/-- The device completes a chain. -/
theorem Inv.rings_complete {i : ℕ}
    (hi : i ∈ s.dev.outstanding) : Rings (devComplete i s) := by
  have hused := h.unreadUsed_complete hi
  have hinfo := h.info_complete hi
  have hperm : (devComplete i s).pending.Perm s.pending := by
    have heq : (devComplete i s).pending =
        s.unreadAvail ++ s.dev.outstanding.erase i ++ (s.unreadUsed ++ [i]) :=
      congrArg (fun l => s.unreadAvail ++ s.dev.outstanding.erase i ++ l) hused
    rw [heq, State.pending, List.append_assoc, List.append_assoc]
    refine List.Perm.append_left _ ?_
    calc s.dev.outstanding.erase i ++ (s.unreadUsed ++ [i])
        = (s.dev.outstanding.erase i ++ s.unreadUsed) ++ [i] := (List.append_assoc ..).symm
      _ |>.Perm (i :: (s.dev.outstanding.erase i ++ s.unreadUsed)) := List.perm_append_singleton ..
      _ |>.Perm (s.dev.outstanding ++ s.unreadUsed) :=
        (List.perm_cons_erase hi).symm.append_right _
  exact
    { seen_lt := h.rings.seen_lt
      avail_lt := h.rings.avail_lt
      usedIdx_lt := h.rings.usedIdx_lt
      used_lt := Nat.mod_lt _ (by decide)
      nodup := hperm.nodup_iff.mpr h.rings.nodup
      marked := fun k => hperm.mem_iff.trans (h.rings.marked k)
      status := fun k hk => by
        rw [hused, List.mem_append, List.mem_singleton] at hk
        rw [hinfo]
        by_cases hki : k = i
        · subst hki; simp
        · simpa [hki] using h.rings.status k (hk.resolve_right hki)
      publishing := h.rings.publishing }

end Rings

/-! ### Sleepers -/

/-- A process inside `virtio_disk_rw` that does not sleep may move on. -/
theorem Sleepers.pc_update [DecidableEq P] {c : Pc B}
    (h : Sleepers s) (hpc : s'.pc = update s.pc p c) (hawake : s'.asleep p = none)
    (hasleep : ∀ q d, s'.asleep q = some d → s.asleep q = some d)
    (hcount : s'.freeCount ≤ s.freeCount ∨ ∀ q, s'.asleep q ≠ some .free)
    (hdisk : ∀ b, s.onDisk b = true → s'.onDisk b = true) : Sleepers s' := by
  have hne : ∀ q d, s'.asleep q = some d → s'.pc q = s.pc q := by
    intro q d hq
    have hqp : q ≠ p := by
      rintro rfl
      rw [hawake] at hq
      cases hq
    rw [hpc, update_of_ne hqp]
  refine ⟨fun q hq => ?_, fun q b hq => ?_⟩
  · rw [hne q _ hq]
    obtain ⟨henter, hlt⟩ := h.free q (hasleep q _ hq)
    exact ⟨henter, by have := hcount.resolve_right (fun hnone => hnone q hq); omega⟩
  · rw [hne q _ hq]
    obtain ⟨hb, hwait⟩ := h.buf q b (hasleep q _ hq)
    exact ⟨hdisk b hb, hwait⟩

/-- A process that is outside or about to publish does not sleep. -/
theorem Sleepers.awake (h : Sleepers s)
    (henter : ∀ r, s.pc p ≠ .enter r) (hwait : ∀ r x, s.pc p ≠ .wait r x) :
    s.asleep p = none := by
  cases hp : s.asleep p with
  | none => rfl
  | some c =>
    cases c with
    | free =>
      obtain ⟨⟨r, hr⟩, -⟩ := h.free p hp
      exact absurd hr (henter r)
    | buf b =>
      obtain ⟨-, r, x, hr, -⟩ := h.buf p b hp
      exact absurd hr (hwait r x)

/-- Taking descriptors leaves no more free ones. -/
theorem freeCount_takeAll_le {l : List ℕ} (h : s'.free = takeAll l s.free) :
    s'.freeCount ≤ s.freeCount := by
  unfold State.freeCount
  refine Finset.card_le_card fun i hi => ?_
  rw [Finset.mem_filter] at hi ⊢
  rw [h, takeAll] at hi
  split_ifs at hi with hl
  · simp at hi
  · exact hi

/-- Every move keeps `Sleepers`. -/
theorem Inv.sleepers_move [DecidableEq P] [DecidableEq B]
    (h : Inv blockno s) (hmove : Move blockno s a s') : Sleepers s' := by
  have hs := h.sleepers
  cases hmove with
  | call hpc hb =>
    exact hs.pc_update rfl (hs.awake (by simp [hpc]) (by simp [hpc])) (fun _ _ hq => hq)
      (.inl le_rfl) (fun _ hb => hb)
  | @allocated p r x hpc hlock hawake hnodup hfree =>
    refine hs.pc_update rfl hawake (fun _ _ hq => hq) (.inl (freeCount_takeAll_le rfl))
      fun b hb => ?_
    by_cases hbr : b = r.b
    · simp [format, hbr]
    · simpa [format, hbr] using hb
  | @shortage p r t hpc hlock hcount hundone =>
    have hold : ∀ q c, q ≠ p → update t.asleep p (some .free) q = some c →
        s.asleep q = some c := by
      intro q c hqp hq
      rw [update_of_ne hqp] at hq
      exact hundone.asleep q c hq
    have hfree : t.free = s.free := by rw [hundone.rest]
    have hpcs : t.pc = s.pc := by rw [hundone.rest]
    have hdisk : t.onDisk = s.onDisk := by rw [hundone.rest]
    refine ⟨fun q hq => ?_, fun q b hq => ?_⟩
    · refine ⟨?_, by simpa only [State.freeCount, hfree] using hcount⟩
      by_cases hqp : q = p
      · exact ⟨r, by rw [hqp, ← hpc, ← hpcs]⟩
      · obtain ⟨⟨r', hr'⟩, -⟩ := hs.free q (hold q _ hqp hq)
        exact ⟨r', by rw [← hr', ← hpcs]⟩
    · have hqp : q ≠ p := by
        rintro rfl
        simp at hq
      obtain ⟨hb, r', x', hr', hb'⟩ := hs.buf q b (hold q _ hqp hq)
      exact ⟨by rw [← hb, ← hdisk], r', x', by rw [← hr', ← hpcs], hb'⟩
  | publish hpc =>
    exact hs.pc_update rfl (hs.awake (by simp [hpc]) (by simp [hpc])) (fun _ _ hq => hq)
      (.inl le_rfl) (fun _ hb => hb)
  | @sleep p r x hpc hlock hdisk =>
    refine ⟨fun q hq => ?_, fun q b hq => ?_⟩
    · have hqp : q ≠ p := by
        rintro rfl
        simp at hq
      simp only [update_of_ne hqp] at hq
      exact hs.free q hq
    · by_cases hqp : q = p
      · subst hqp
        simp only [update_self, Option.some.injEq, Chan.buf.injEq] at hq
        subst hq
        exact ⟨hdisk, r, x, hpc, rfl⟩
      · simp only [update_of_ne hqp] at hq
        exact hs.buf q b hq
  | finish hpc hlock hawake hdisk =>
    refine hs.pc_update rfl (by simp [woken, hawake]) (fun _ _ hq => (woken_some hq).1)
      (.inr fun q hq => (woken_some hq).2 rfl) (fun _ hb => hb)
  | intrEnter => exact ⟨hs.free, hs.buf⟩
  | intrExit => exact ⟨hs.free, hs.buf⟩
  | @process b hnew hlock hb =>
    refine ⟨fun q hq => hs.free q (woken_some hq).1, fun q b' hq => ?_⟩
    obtain ⟨hold, hne⟩ := woken_some hq
    have hbb : b' ≠ b := fun heq => hne (by rw [heq])
    obtain ⟨hb', hwait⟩ := hs.buf q b' hold
    exact ⟨by simpa [hbb] using hb', hwait⟩
  | take => exact ⟨hs.free, hs.buf⟩
  | complete => exact ⟨hs.free, hs.buf⟩
  | @wake p =>
    have hold : ∀ q c, update s.asleep p none q = some c → s.asleep q = some c := by
      intro q c hq
      by_cases hqp : q = p
      · subst hqp; simp at hq
      · rwa [update_of_ne hqp] at hq
    exact ⟨fun q hq => hs.free q (hold q _ hq), fun q b hq => hs.buf q b (hold q _ hq)⟩

/-! ### Every step -/

/-- Every move keeps `Chains`. -/
theorem Inv.chains_move [DecidableEq P] [DecidableEq B]
    (h : Inv blockno s) (hmove : Move blockno s a s') : Chains blockno s' := by
  have hc := h.chains
  cases hmove with
  | call hpc hb => exact hc.call hpc hb rfl
  | allocated hpc hlock hawake hnodup hfree => exact hc.allocated hpc hnodup hfree _
  | @shortage p r t hpc hlock hcount hundone =>
    have hrest := hundone.rest
    exact hc.frame (fun q => by rw [hrest]) (fun q => by rw [hrest]) (by rw [hrest])
      hundone.desc (by rw [hrest]) (fun i => by rw [hrest]) (by rw [hrest])
  | @publish p r x hpc =>
    have hupdate : ∀ q, (rwPublish p r x s).pc q = if q = p then .wait r x else s.pc q :=
      fun q => update_apply ..
    refine hc.frame (fun q => ?_) (fun q => ?_) rfl (fun _ _ => rfl) rfl (fun _ => rfl) rfl
    · rw [hupdate]
      split_ifs with hqp
      · rw [hqp, hpc]; rfl
      · rfl
    · rw [hupdate]
      split_ifs with hqp
      · rw [hqp, hpc]; rfl
      · rfl
  | finish hpc hlock hawake hdisk => exact hc.finish hpc _ (by rfl) _ _
  | complete hh =>
    refine hc.frame (fun _ => rfl) (fun _ => rfl) rfl (fun _ _ => rfl) rfl (fun i => ?_) rfl
    rw [h.info_complete hh, update_apply]
    split_ifs with hi
    · rw [hi]
    · rfl
  | _ => exact hc.frame (fun _ => rfl) (fun _ => rfl) rfl (fun _ _ => rfl) rfl (fun _ => rfl) rfl

/-- Every move keeps `Rings`. -/
theorem Inv.rings_move [DecidableEq P] [DecidableEq B]
    (h : Inv blockno s) (hmove : Move blockno s a s') : Rings s' := by
  have hr := h.rings
  cases hmove with
  | @call p b write hpc hb =>
    refine hr.frame rfl rfl rfl rfl
      (marked_update rfl rfl (by simp [hpc]) (by simp)) (fun _ => rfl) fun q r x hq => ?_
    by_cases hqp : q = p
    · subst hqp; simp at hq
    · exact ⟨by simpa [update_of_ne hqp] using hq, rfl, rfl⟩
  | allocated hpc hlock hawake hnodup hfree => exact h.rings_allocated hpc hlock hfree
  | @shortage p r t hpc hlock hcount hundone =>
    have hrest := hundone.rest
    refine hr.frame (by rw [hrest]) (by rw [hrest]) (by rw [hrest]) (by rw [hrest])
      (fun i => ?_) (fun i => by rw [hrest]) fun q r x hq => ?_
    · unfold State.Marked
      rw [hrest]
    · exact ⟨by rw [← hq, hrest], by rw [hrest], by rw [hrest]⟩
  | publish hpc => exact h.rings_publish hpc
  | @sleep p r x hpc hlock hdisk =>
    refine hr.frame rfl rfl rfl rfl (fun _ => .rfl) (fun _ => rfl) fun q r' x' hq => ?_
    -- A process about to publish would hold the lock.
    have hqp : q ≠ p := by
      rintro rfl
      rw [hpc] at hq
      cases hq
    refine absurd hq (hr.not_publishing rfl ?_ r' x')
    rcases hlock with hlock | hlock <;> simp [hlock, Ne.symm hqp]
  | @finish p r x hpc hlock hawake hdisk =>
    refine hr.frame rfl rfl rfl rfl (marked_update rfl rfl ?_ (by simp)) (fun i => ?_)
      fun q r' x' hq => ?_
    · intro r' x' hq
      rw [hpc] at hq
      cases hq
      exact hdisk
    · by_cases hi : i = x.head
      · subst hi; simp
      · simp [hi]
    · have hqp : q ≠ p := by
        rintro rfl
        simp at hq
      simp only [update_of_ne hqp] at hq
      refine absurd hq (hr.not_publishing rfl ?_ r' x')
      rcases hlock with hlock | hlock <;> simp [hlock, Ne.symm hqp]
  | intrEnter hlock =>
    exact hr.frame rfl rfl rfl rfl (fun _ => .rfl) (fun _ => rfl)
      fun q r x hq => absurd hq (hr.not_publishing hlock (by simp) r x)
  | intrExit hlock =>
    exact hr.frame rfl rfl rfl rfl (fun _ => .rfl) (fun _ => rfl)
      fun q r x hq => absurd hq (hr.not_publishing hlock (by simp) r x)
  | process hnew hlock hb => exact h.rings_process hnew hlock hb _
  | take hnew => exact h.rings_take hnew
  | complete hh => exact h.rings_complete hh
  | wake =>
    exact hr.frame rfl rfl rfl rfl (fun _ => .rfl) (fun _ => rfl) fun _ _ _ hq => ⟨hq, rfl, rfl⟩

/-- The initial state satisfies the invariant. -/
theorem inv_init : Inv blockno (State.init : State P B) where
  running := rfl
  chains := ⟨by simp [State.init, Pc.flight], by simp [State.init, Pc.flight],
    by simp [State.init], by simp [State.init, Pc.request]⟩
  rings := by
    have hlt : 0 < idxMod := by decide
    have hpending : (State.init : State P B).pending = [] := by
      simp [State.init, State.pending, State.unreadAvail, State.unreadUsed, Ring.used,
        Ring.contents]
    exact ⟨hlt, hlt, hlt, hlt, by simp [hpending],
      fun i => by rw [hpending]; simp [State.Marked, State.init], fun _ _ => rfl,
      by simp [State.init]⟩
  sleepers := ⟨by simp [State.init], by simp [State.init]⟩

/-- Every step keeps the invariant. -/
theorem Inv.step [DecidableEq P] [DecidableEq B]
    (h : Inv blockno s) (hstep : Step blockno a s s') : Inv blockno s' := by
  have hmove := h.move hstep
  refine ⟨?_, h.chains_move hmove, h.rings_move hmove, h.sleepers_move hmove⟩
  cases hmove with
  | shortage _ _ _ hundone => rw [hundone.rest]; exact h.running
  | _ => exact h.running

/-- The invariant holds in every run. -/
theorem Reachable.inv [DecidableEq P] [DecidableEq B]
    (h : Reachable blockno s) : Inv blockno s := by
  induction h with
  | init => exact inv_init
  | step _ hstep ih => exact ih.step hstep

end RiscvKernel.Virtio
