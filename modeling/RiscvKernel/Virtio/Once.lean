import Mathlib.Data.Fintype.Basic
import RiscvKernel.Virtio.Inv

/-!
# Every request is completed once

The ghost history of a run says which calls the device has completed and which have
returned. A call that has not been completed is not in the history; one whose completion
the driver has seen, or can see in the used ring, is there once; and a call returns only
then.
-/

namespace RiscvKernel.Virtio

open Function

variable {P B : Type} {blockno : B → ℕ} {s s' : State P B} {a : Act P B}
  {p : P} {r : Request B} {x : Triple}

/-- The device has finished the request of a waiting call. -/
def State.Finished (s : State P B) (p : P) : Prop :=
  ∃ r x, s.pc p = .wait r x ∧ (x.head ∈ s.unreadUsed ∨ s.onDisk r.b = false)

/-- The history agrees with the state of the calls. -/
structure Once (blockno : B → ℕ) (s : State P B) : Prop where
  active_lt : ∀ p r, (s.pc p).request = some r → r.ticket < s.hist.calls
  apart : ∀ p q r r', (s.pc p).request = some r → (s.pc q).request = some r' →
    r.ticket = r'.ticket → p = q
  completed_lt : ∀ c ∈ s.hist.completed, c.ticket < s.hist.calls
  nodup : (s.hist.completed.map Completion.ticket).Nodup
  todo : ∀ p r, (s.pc p).request = some r → ¬ s.Finished p →
    r.ticket ∉ s.hist.completed.map Completion.ticket
  done : ∀ p r, (s.pc p).request = some r → s.Finished p → r.work blockno ∈ s.hist.completed
  returned : ∀ r ∈ s.hist.returned, r.work blockno ∈ s.hist.completed ∧
    ∀ p r', (s.pc p).request = some r' → r'.ticket ≠ r.ticket
  returned_nodup : (s.hist.returned.map Request.ticket).Nodup

/-- A step that keeps the calls, their progress and the history. -/
theorem Once.frame (h : Once blockno s)
    (hrequest : ∀ p, (s'.pc p).request = (s.pc p).request)
    (hfinished : ∀ p, s'.Finished p ↔ s.Finished p) (hcalls : s'.hist.calls = s.hist.calls)
    (hcompleted : s'.hist.completed = s.hist.completed)
    (hreturned : s'.hist.returned = s.hist.returned) : Once blockno s' where
  active_lt p r hp := by rw [hcalls]; exact h.active_lt p r (hrequest p ▸ hp)
  apart p q r r' hp hq := h.apart p q r r' (hrequest p ▸ hp) (hrequest q ▸ hq)
  completed_lt c hc := by rw [hcalls]; exact h.completed_lt c (hcompleted ▸ hc)
  nodup := by rw [hcompleted]; exact h.nodup
  todo p r hp hnot := by
    rw [hcompleted]
    exact h.todo p r (hrequest p ▸ hp) fun hfin => hnot ((hfinished p).mpr hfin)
  done p r hp hfin := by
    rw [hcompleted]
    exact h.done p r (hrequest p ▸ hp) ((hfinished p).mp hfin)
  returned r hr := by
    rw [hreturned] at hr
    rw [hcompleted]
    exact ⟨(h.returned r hr).1, fun p r' hp => (h.returned r hr).2 p r' (hrequest p ▸ hp)⟩
  returned_nodup := by rw [hreturned]; exact h.returned_nodup

/-- Whether a call is finished depends on its own place, its entry in the used ring and
its buffer. -/
theorem finished_congr (hpc : s'.pc p = s.pc p)
    (hused : ∀ r x, s.pc p = .wait r x → (x.head ∈ s'.unreadUsed ↔ x.head ∈ s.unreadUsed))
    (hdisk : ∀ r x, s.pc p = .wait r x → s'.onDisk r.b = s.onDisk r.b) :
    s'.Finished p ↔ s.Finished p := by
  unfold State.Finished
  rw [hpc]
  constructor
  · rintro ⟨r, x, hp, hx⟩
    exact ⟨r, x, hp, by rwa [hused r x hp, hdisk r x hp] at hx⟩
  · rintro ⟨r, x, hp, hx⟩
    exact ⟨r, x, hp, by rwa [hused r x hp, hdisk r x hp]⟩

/-- A call that does not wait is not finished. -/
theorem not_finished (h : ∀ r x, s.pc p ≠ .wait r x) :
    ¬ s.Finished p := by
  rintro ⟨r, x, hp, -⟩
  exact h r x hp

/-- A process that enters gets a new ticket. -/
theorem Once.call [DecidableEq P] {b : B} {write : Bool}
    (h : Once blockno s) (hpc : s.pc p = .outside) :
    Once blockno { s with
      pc := update s.pc p (.enter ⟨b, write, s.hist.calls⟩)
      hist := { s.hist with calls := s.hist.calls + 1 } } := by
  have hold : ∀ q r, q ≠ p →
      (update s.pc p (.enter ⟨b, write, s.hist.calls⟩) q).request = some r →
      (s.pc q).request = some r := by
    intro q r hqp hq
    rwa [update_of_ne hqp] at hq
  have hself : ∀ r, (update s.pc p (.enter ⟨b, write, s.hist.calls⟩) p).request =
      some r → r.ticket = s.hist.calls := by
    intro r hr
    rw [update_self] at hr
    cases hr
    rfl
  have hfinished : ∀ q, q ≠ p → (State.Finished { s with
      pc := update s.pc p (.enter ⟨b, write, s.hist.calls⟩)
      hist := { s.hist with calls := s.hist.calls + 1 } } q ↔ s.Finished q) :=
    fun q hqp => finished_congr (update_of_ne hqp _ _) (fun _ _ _ => .rfl)
      (fun _ _ _ => rfl)
  refine ⟨fun q r hq => ?_, fun q q' r r' hq hq' heq => ?_, fun c hc => ?_, h.nodup,
    fun q r hq hnot => ?_, fun q r hq hfin => ?_, fun r hr => ⟨(h.returned r hr).1, ?_⟩,
    h.returned_nodup⟩
  · by_cases hqp : q = p
    · subst hqp
      simp [hself r hq]
    · exact (h.active_lt q r (hold q r hqp hq)).trans (Nat.lt_succ_self _)
  · by_cases hqp : q = p <;> by_cases hqp' : q' = p
    · rw [hqp, hqp']
    · subst hqp
      have := h.active_lt q' r' (hold q' r' hqp' hq')
      rw [← heq, hself r hq] at this
      exact absurd this (lt_irrefl _)
    · subst hqp'
      have := h.active_lt q r (hold q r hqp hq)
      rw [heq, hself r' hq'] at this
      exact absurd this (lt_irrefl _)
    · exact h.apart q q' r r' (hold q r hqp hq) (hold q' r' hqp' hq') heq
  · exact (h.completed_lt c hc).trans (Nat.lt_succ_self _)
  · by_cases hqp : q = p
    · subst hqp
      intro hmem
      obtain ⟨c, hc, hticket⟩ := List.mem_map.mp hmem
      have := h.completed_lt c hc
      rw [hticket, hself r hq] at this
      exact absurd this (lt_irrefl _)
    · exact h.todo q r (hold q r hqp hq) fun hfin => hnot ((hfinished q hqp).mpr hfin)
  · by_cases hqp : q = p
    · subst hqp
      exact absurd hfin (not_finished (by simp))
    · exact h.done q r (hold q r hqp hq) ((hfinished q hqp).mp hfin)
  · intro q r' hq
    by_cases hqp : q = p
    · subst hqp
      have hlt := h.completed_lt _ (h.returned r hr).1
      rw [hself r' hq]
      exact (Nat.ne_of_lt hlt).symm
    · exact (h.returned r hr).2 q r' (hold q r' hqp hq)

/-- A call returns after the device has finished it. -/
theorem Once.finish [DecidableEq P]
    (h : Once blockno s) (hpc : s.pc p = .wait r x) (hdisk : s.onDisk r.b = false)
    (hpc' : s'.pc = update s.pc p .outside) (hused : s'.unreadUsed = s.unreadUsed)
    (hdisk' : s'.onDisk = s.onDisk)
    (hhist : s'.hist = { s.hist with returned := s.hist.returned ++ [r] }) :
    Once blockno s' := by
  have hrequest : (s.pc p).request = some r := by rw [hpc]; rfl
  have hold : ∀ q r', (s'.pc q).request = some r' → q ≠ p ∧ (s.pc q).request = some r' := by
    intro q r' hq
    rw [hpc'] at hq
    by_cases hqp : q = p
    · subst hqp
      rw [update_self] at hq
      cases hq
    · rw [update_of_ne hqp] at hq
      exact ⟨hqp, hq⟩
  have hfinished : ∀ q, q ≠ p → (s'.Finished q ↔ s.Finished q) := fun q hqp =>
    finished_congr (by rw [hpc', update_of_ne hqp]) (fun _ _ _ => by rw [hused])
      (fun _ _ _ => by rw [hdisk'])
  have hdone := h.done p r hrequest ⟨r, x, hpc, .inr hdisk⟩
  have hcompleted : s'.hist.completed = s.hist.completed := by rw [hhist]
  refine ⟨fun q r' hq => ?_, fun q q' r1 r2 hq hq' => ?_, ?_, ?_, fun q r' hq hnot => ?_,
    fun q r' hq hfin => ?_, fun r' hr => ?_, ?_⟩
  · rw [hhist]
    exact h.active_lt q r' (hold q r' hq).2
  · exact h.apart q q' r1 r2 (hold q r1 hq).2 (hold q' r2 hq').2
  · rw [hhist]
    exact h.completed_lt
  · rw [hcompleted]
    exact h.nodup
  · obtain ⟨hqp, hq⟩ := hold q r' hq
    rw [hcompleted]
    exact h.todo q r' hq fun hfin => hnot ((hfinished q hqp).mpr hfin)
  · obtain ⟨hqp, hq⟩ := hold q r' hq
    rw [hcompleted]
    exact h.done q r' hq ((hfinished q hqp).mp hfin)
  · rw [hcompleted]
    simp only [hhist, List.mem_append, List.mem_singleton] at hr
    rcases hr with hr | rfl
    · exact ⟨(h.returned r' hr).1, fun q r1 hq => (h.returned r' hr).2 q r1 (hold q r1 hq).2⟩
    · refine ⟨hdone, fun q r1 hq heq => ?_⟩
      obtain ⟨hqp, hq⟩ := hold q r1 hq
      exact hqp (h.apart q p r1 r' hq hrequest heq)
  · simp only [hhist, List.map_append, List.map_cons, List.map_nil]
    refine List.nodup_append.mpr ⟨h.returned_nodup, List.nodup_singleton _, ?_⟩
    rintro t ht t' ht' rfl
    obtain ⟨r', hr', hticket⟩ := List.mem_map.mp ht
    rw [List.mem_singleton.mp ht'] at hticket
    exact (h.returned r' hr').2 p r hrequest hticket.symm

/-- The device completes a request that was not completed before. -/
theorem Once.complete {i : ℕ} (h : Once blockno s) (hinv : Inv blockno s)
    (hi : i ∈ s.dev.outstanding) : Once blockno (devComplete i s) := by
  have hpending : i ∈ s.pending := List.mem_append_left _ (List.mem_append_right _ hi)
  obtain ⟨p, r, x, hpc, rfl, hdisk⟩ := (hinv.rings.marked i).mp hpending
  have hrequest : (s.pc p).request = some r := by rw [hpc]; rfl
  have hflight : (s.pc p).flight = some (r, x) := by rw [hpc]; rfl
  have hwork := (hinv.chains.chained p r x hflight).chainWork
  have hused := hinv.unreadUsed_complete hi
  have hcompleted : (devComplete x.head s).hist.completed =
      s.hist.completed ++ [r.work blockno] :=
    congrArg (fun c => s.hist.completed ++ [c]) hwork
  -- The head is outstanding, hence not yet in the used ring.
  have hnot : ¬ s.Finished p := by
    rintro ⟨r', x', hp, hx'⟩
    rw [hpc] at hp
    cases hp
    rcases hx' with hx' | hx'
    · have hdisjoint := (List.nodup_append.mp hinv.rings.nodup).2.2
      exact hdisjoint _ (List.mem_append_right _ hi) _ hx' rfl
    · rw [hdisk] at hx'
      cases hx'
  have hother : ∀ q, q ≠ p → ((devComplete x.head s).Finished q ↔ s.Finished q) := by
    refine fun q hqp => finished_congr rfl (fun r' x' hq => ?_) (fun _ _ _ => rfl)
    have hne : x'.head ≠ x.head := by
      intro heq
      refine hqp (hinv.chains.apart q p r' x' r x x.head (by rw [hq]; rfl) hflight ?_ ?_)
      · simp [Triple.toList, heq]
      · simp [Triple.toList]
    rw [hused]
    simp [hne]
  refine ⟨h.active_lt, h.apart, fun c hc => ?_, ?_, fun q r' hq hfin => ?_, fun q r' hq hfin => ?_,
    fun r' hr => ?_, h.returned_nodup⟩
  · rw [hcompleted] at hc
    rcases List.mem_append.mp hc with hc | hc
    · exact h.completed_lt c hc
    · rw [List.mem_singleton.mp hc]
      exact h.active_lt p r hrequest
  · rw [hcompleted, List.map_append]
    refine List.nodup_append.mpr ⟨h.nodup, by simp, ?_⟩
    rintro t ht t' ht' rfl
    rw [List.map_singleton, List.mem_singleton] at ht'
    rw [ht'] at ht
    exact h.todo p r hrequest hnot ht
  · have hqp : q ≠ p := by
      rintro rfl
      refine hfin ⟨r, x, hpc, .inl ?_⟩
      rw [hused]
      simp
    rw [hcompleted, List.map_append, List.mem_append, not_or]
    refine ⟨h.todo q r' hq fun hf => hfin ((hother q hqp).mpr hf), ?_⟩
    rw [List.map_singleton, List.mem_singleton]
    exact fun heq => hqp (h.apart q p r' r hq hrequest heq)
  · rw [hcompleted, List.mem_append]
    by_cases hqp : q = p
    · subst hqp
      cases hrequest.symm.trans hq
      exact .inr (by simp)
    · exact .inl (h.done q r' hq ((hother q hqp).mp hfin))
  · rw [hcompleted]
    exact ⟨List.mem_append_left _ (h.returned r' hr).1, (h.returned r' hr).2⟩

/-- Every move keeps the history in agreement with the calls. -/
theorem Once.move [DecidableEq P] [DecidableEq B]
    (h : Once blockno s) (hinv : Inv blockno s) (hmove : Move blockno s a s') :
    Once blockno s' := by
  cases hmove with
  | call hpc hb => exact h.call hpc
  | @allocated p r x hpc hlock hawake hnodup hfree =>
    refine h.frame (fun q => ?_) (fun q => ?_) rfl rfl rfl
    · by_cases hqp : q = p
      · subst hqp
        simp [hpc, Pc.request]
      · simp [update_of_ne hqp]
    · by_cases hqp : q = p
      · subst hqp
        exact iff_of_false (not_finished (by simp)) (not_finished (by simp [hpc]))
      · refine finished_congr (update_of_ne hqp _ _) (fun _ _ _ => .rfl)
          fun r' x' hq => ?_
        have hb : r'.b ≠ r.b := fun hb =>
          hqp (hinv.chains.buffers q p r' r (by rw [hq]; rfl) (by rw [hpc]; rfl) hb)
        simp [format, hb]
  | @shortage p r t hpc hlock hcount hundone =>
    have hrest := hundone.rest
    refine h.frame (fun q => by rw [hrest]) (fun q => ?_) (by rw [hrest]) (by rw [hrest])
      (by rw [hrest])
    refine finished_congr (by rw [hrest]) (fun _ _ _ => ?_) (fun _ _ _ => by rw [hrest])
    rw [hrest]
    rfl
  | @publish p r x hpc =>
    have hupdate : ∀ q, (rwPublish p r x s).pc q = if q = p then .wait r x else s.pc q :=
      fun q => update_apply ..
    refine h.frame (fun q => ?_) (fun q => ?_) rfl rfl rfl
    · rw [hupdate]
      split_ifs with hqp
      · rw [hqp, hpc]; rfl
      · rfl
    · by_cases hqp : q = p
      · subst hqp
        refine iff_of_false ?_ (not_finished (by simp [hpc]))
        rintro ⟨r', x', hq, hx'⟩
        rw [hupdate, if_pos rfl] at hq
        cases hq
        obtain ⟨-, hdisk, -⟩ := hinv.rings.publishing q r x hpc
        rcases hx' with hx' | hx'
        · exact hinv.publishing_not_pending hpc (List.mem_append_right _ hx')
        · exact absurd (hdisk.symm.trans hx') (by simp)
      · exact finished_congr (by rw [hupdate, if_neg hqp]) (fun _ _ _ => .rfl) (fun _ _ _ => rfl)
  | finish hpc hlock hawake hdisk => exact h.finish hpc hdisk rfl rfl rfl rfl
  | @process b hnew hlock hb =>
    have hcons := hinv.rings.unreadUsed_cons hnew
    obtain ⟨p, r, x, hpc, hhead, hdisk, hbuf, -⟩ :=
      hinv.unreadUsed_owner (hcons ▸ List.mem_cons_self)
    rw [hb] at hbuf
    cases hbuf
    refine h.frame (fun _ => rfl) (fun q => ?_) rfl rfl rfl
    by_cases hqp : q = p
    · subst hqp
      exact iff_of_true ⟨r, x, hpc, .inr (by simp)⟩
        ⟨r, x, hpc, .inl (by rw [hcons, hhead]; exact List.mem_cons_self)⟩
    · refine finished_congr rfl (fun r' x' hq => ?_) (fun r' x' hq => ?_)
      · -- The processed entry is not the entry of another call.
        have hne : x'.head ≠ x.head := by
          intro heq
          refine hqp (hinv.chains.apart q p r' x' r x x.head (by rw [hq]; rfl)
            (by rw [hpc]; rfl) ?_ ?_)
          · simp [Triple.toList, heq]
          · simp [Triple.toList]
        rw [hcons, ← hhead, List.mem_cons, or_iff_right hne]
        rfl
      · have hb' : r'.b ≠ r.b := fun heq =>
          hqp (hinv.chains.buffers q p r' r (by rw [hq]; rfl) (by rw [hpc]; rfl) heq)
        simp [hb']
  | complete hh => exact h.complete hinv hh
  | _ => exact h.frame (fun _ => rfl) (fun _ => .rfl) rfl rfl rfl

/-- The history is in agreement with the calls in every run. -/
theorem Reachable.once [DecidableEq P] [DecidableEq B]
    (h : Reachable blockno s) : Once blockno s := by
  induction h with
  | init =>
    exact ⟨by simp [State.init, Pc.request], by simp [State.init, Pc.request],
      by simp [State.init], by simp [State.init], by simp [State.init, Pc.request],
      by simp [State.init, Pc.request], by simp [State.init], by simp [State.init]⟩
  | step hs hstep ih => exact ih.move hs.inv (hs.inv.move hstep)

/-! ### The driver is correct -/

/-- How a queue may change in one step: an entry is added at its end, or the oldest one is
taken. Entries that are neither taken nor new keep their place and their value. -/
def Queued (l l' : List ℕ) : Prop := l' = l ∨ (∃ i, l' = l ++ [i]) ∨ ∃ i, l = i :: l'

/-- No step overwrites an unread entry of the avail ring. -/
theorem Inv.queued_avail [DecidableEq P] [DecidableEq B]
    (h : Inv blockno s) (hstep : Step blockno a s s') :
    Queued s.unreadAvail s'.unreadAvail := by
  have hmove := h.move hstep
  cases hmove with
  | @allocated p r x hpc hlock hawake hnodup hfree =>
    refine .inl (h.unreadAvail_format (r := r) hfree fun hx => ?_)
    have hused := (h.pending_taken hx).2
    rw [(hfree x.head (by simp [Triple.toList])).2] at hused
    cases hused
  | shortage hpc hlock hcount hundone =>
    left
    rw [hundone.rest]
    rfl
  | publish hpc => exact .inr (.inl ⟨_, h.unreadAvail_publish hpc (h.publishing_not_pending hpc)⟩)
  | take hnew => exact .inr (.inr ⟨_, h.rings.unreadAvail_cons hnew⟩)
  | _ => exact .inl rfl

/-- No step overwrites an unread entry of the used ring. -/
theorem Inv.queued_used [DecidableEq P] [DecidableEq B]
    (h : Inv blockno s) (hstep : Step blockno a s s') :
    Queued s.unreadUsed s'.unreadUsed := by
  have hmove := h.move hstep
  cases hmove with
  | shortage hpc hlock hcount hundone =>
    left
    rw [hundone.rest]
    rfl
  | process hnew hlock hb => exact .inr (.inr ⟨_, h.rings.unreadUsed_cons hnew⟩)
  | complete hh => exact .inr (.inl ⟨_, h.unreadUsed_complete hh⟩)
  | _ => exact .inl rfl

/-- What the driver guarantees in a state of a run. -/
structure Correct [DecidableEq P] [DecidableEq B] (blockno : B → ℕ) (s : State P B) : Prop where
  /-- A request in flight has three different descriptors. -/
  triple : ∀ p r x, (s.pc p).flight = some (r, x) → x.toList.Nodup ∧ ∀ i ∈ x.toList, i < num
  /-- Different requests have different descriptors. -/
  disjoint : ∀ p q r x r' x', p ≠ q → (s.pc p).flight = some (r, x) →
    (s.pc q).flight = some (r', x') → x.toList.Disjoint x'.toList
  /-- The free descriptors are those of no request in flight. -/
  free : ∀ i, s.free i = true ↔ ∀ p r x, (s.pc p).flight = some (r, x) → i ∉ x.toList
  /-- No step overwrites an unread entry of either ring. -/
  fifo : ∀ a s', Step blockno a s s' →
    Queued s.unreadAvail s'.unreadAvail ∧ Queued s.unreadUsed s'.unreadUsed
  /-- The used entry that the interrupt handler processes next names the chain of a request
  in flight, and `info[id].b` is the buffer of this request. -/
  owner : s.usedIdx ≠ s.used.idx → ∃ p r x, (s.pc p).flight = some (r, x) ∧
    x.head = s.used.ring (s.usedIdx % num) ∧ (s.info x.head).b = some r.b
  /-- The device has finished the request of every call that has returned. -/
  returned : ∀ r ∈ s.hist.returned, r.work blockno ∈ s.hist.completed
  /-- The device finishes no request twice, and no call returns twice. -/
  once : (s.hist.completed.map Completion.ticket).Nodup ∧
    (s.hist.returned.map Request.ticket).Nodup
  /-- Nothing has panicked. -/
  running : s.panicked = none
  /-- Nobody waits for descriptors while there are three. -/
  noLostWakeup : s.lock = none → ∀ p, s.asleep p = some .free → s.freeCount < 3

/-- The virtio disk driver completes each request exactly once, in every interleaving of
its processes, the interrupt handler and the device. -/
theorem driver_correct [DecidableEq P] [DecidableEq B]
    (h : Reachable blockno s) : Correct blockno s where
  triple p r x hp :=
    ⟨(h.inv.chains.chained p r x hp).nodup,
      fun i hi => ((h.inv.chains.chained p r x hp).taken i hi).1⟩
  disjoint p q r x r' x' hne hp hq i hi hi' :=
    hne (h.inv.chains.apart p q r x r' x' i hp hq hi hi')
  free i := by
    constructor
    · intro hfree p r x hp hi
      have hused := ((h.inv.chains.chained p r x hp).taken i hi).2
      rw [hfree] at hused
      cases hused
    · intro hnone
      by_contra hused
      obtain ⟨p, r, x, hp, hi⟩ := h.inv.chains.owned i (by simpa using hused)
      exact hnone p r x hp hi
  fifo a s' hstep := ⟨h.inv.queued_avail hstep, h.inv.queued_used hstep⟩
  owner hnew := by
    obtain ⟨p, r, x, hpc, hhead, -, hbuf, -⟩ :=
      h.inv.unreadUsed_owner (h.inv.rings.unreadUsed_cons hnew ▸ List.mem_cons_self)
    exact ⟨p, r, x, by rw [hpc]; rfl, hhead, by rw [hhead, hbuf]⟩
  returned r hr := (h.once.returned r hr).1
  once := ⟨h.once.nodup, h.once.returned_nodup⟩
  running := h.inv.running
  noLostWakeup _ p hp := (h.inv.sleepers.free p hp).2

/-! ### A run -/

/-- The steps as a function, for finitely many processes. -/
def next [DecidableEq P] [DecidableEq B] [Fintype P] (blockno : B → ℕ) (a : Act P B)
    (s : State P B) : Option (State P B) :=
  if s.panicked.isSome then none
  else match a with
    | .call p b write =>
      if s.pc p = .outside ∧ ∀ q, (s.pc q).request.map Request.b ≠ some b then some { s with
        pc := update s.pc p (.enter ⟨b, write, s.hist.calls⟩)
        hist := { s.hist with calls := s.hist.calls + 1 } }
      else none
    | .alloc p =>
      match s.pc p with
      | .enter r =>
        if s.asleep p = none ∧ s.lock = none then some (orPanic s (rwAlloc blockno p r s))
        else none
      | _ => none
    | .publish p =>
      match s.pc p with
      | .publish r x => some (rwPublish p r x s)
      | _ => none
    | .wait p =>
      match s.pc p with
      | .wait r x =>
        if s.asleep p = none ∧ (s.lock = none ∨ s.lock = some (.proc p)) then
          some (orPanic s (rwWait p r x s))
        else none
      | _ => none
    | .intrEnter => if s.lock = none then some { s with lock := some .intr } else none
    | .intrLoop => if s.lock = some .intr then some (orPanic s (intrLoop s)) else none
    | .take => if s.dev.seen ≠ s.avail.idx then some (devTake s) else none
    | .complete h => if h ∈ s.dev.outstanding then some (devComplete h s) else none
    | .wake p => some { s with asleep := update s.asleep p none }

/-- What `next` computes is a step. -/
theorem step_of_next [DecidableEq P] [DecidableEq B] [Fintype P]
    (h : next blockno a s = some s') : Step blockno a s s' := by
  unfold next at h
  have hrun : s.panicked = none := by
    by_contra hpanic
    rw [if_pos (by simpa [Option.isSome_iff_ne_none] using hpanic)] at h
    cases h
  rw [if_neg (by simp [hrun])] at h
  cases a with
  | call p b write =>
    simp only [Option.ite_none_right_eq_some, Option.some.injEq] at h
    obtain ⟨⟨hpc, hb⟩, rfl⟩ := h
    exact .call hrun hpc fun q r hq heq => hb q (by rw [hq, Option.map_some, heq])
  | alloc p =>
    cases hpc : s.pc p with
    | enter r =>
      simp only [hpc, Option.ite_none_right_eq_some, Option.some.injEq] at h
      obtain ⟨⟨hawake, hlock⟩, rfl⟩ := h
      exact .alloc hrun hpc hawake hlock
    | _ => simp [hpc] at h
  | publish p =>
    cases hpc : s.pc p with
    | publish r x =>
      simp only [hpc, Option.some.injEq] at h
      subst h
      exact .publish hrun hpc
    | _ => simp [hpc] at h
  | wait p =>
    cases hpc : s.pc p with
    | wait r x =>
      simp only [hpc, Option.ite_none_right_eq_some, Option.some.injEq] at h
      obtain ⟨⟨hawake, hlock⟩, rfl⟩ := h
      exact .wait hrun hpc hawake hlock
    | _ => simp [hpc] at h
  | intrEnter =>
    simp only [Option.ite_none_right_eq_some, Option.some.injEq] at h
    obtain ⟨hlock, rfl⟩ := h
    exact .intrEnter hrun hlock
  | intrLoop =>
    simp only [Option.ite_none_right_eq_some, Option.some.injEq] at h
    obtain ⟨hlock, rfl⟩ := h
    exact .intrLoop hrun hlock
  | take =>
    simp only [Option.ite_none_right_eq_some, Option.some.injEq] at h
    obtain ⟨hnew, rfl⟩ := h
    exact .take hrun hnew
  | complete i =>
    simp only [Option.ite_none_right_eq_some, Option.some.injEq] at h
    obtain ⟨hi, rfl⟩ := h
    exact .complete hrun hi
  | wake p =>
    simp only [Option.some.injEq] at h
    subst h
    exact .wake hrun

/-- The state after a list of steps. -/
def runs [DecidableEq P] [DecidableEq B] [Fintype P] (blockno : B → ℕ) (l : List (Act P B))
    (s : State P B) : Option (State P B) :=
  l.foldlM (fun s a => next blockno a s) s

/-- A list of steps is a run. -/
theorem Reachable.runs [DecidableEq P] [DecidableEq B] [Fintype P] {l : List (Act P B)}
    (hs : Reachable blockno s) (h : runs blockno l s = some s') :
    Reachable blockno s' := by
  induction l generalizing s with
  | nil =>
    cases h
    exact hs
  | cons a l ih =>
    rw [Virtio.runs, List.foldlM_cons, Option.bind_eq_bind, Option.bind_eq_some_iff] at h
    obtain ⟨t, ht, hrest⟩ := h
    exact ih (hs.step (step_of_next ht)) hrest

/-- For the numerals of `Fin 3`, the processes and the buffers of the run below. -/
scoped instance threeBufs : @NeZero ℕ Zero.ofOfNat0 3 := ⟨by decide⟩

/-- Three processes ask for the disk while there are descriptors for two; the device
finishes the second request before the first, one of them during the interrupt. -/
def threeCalls : List (Act (Fin 3) (Fin 3)) :=
  [.call 0 0 true, .call 1 1 false, .call 2 2 false, .alloc 0, .publish 0, .wait 0, .alloc 1,
    .publish 1, .take, .wait 1, .alloc 2, .take, .complete 3, .intrEnter, .intrLoop, .complete 0,
    .intrLoop, .intrLoop, .wait 1, .alloc 2]

/-- After these steps the second call has returned, the first can return, and the third has
got the descriptors of the second. -/
theorem threeCalls_correct :
    ∃ s, runs (fun b : Fin 3 => b.val) threeCalls State.init = some s ∧
      s.hist.returned = [⟨1, false, 1⟩] ∧ s.hist.completed.map Completion.ticket = [1, 0] ∧
      s.pc 2 = .publish ⟨2, false, 2⟩ ⟨3, 4, 5⟩ ∧ Correct (fun b : Fin 3 => b.val) s := by
  have hfacts : ((runs (fun b : Fin 3 => b.val) threeCalls State.init).map fun s =>
      (s.hist.returned, s.hist.completed.map Completion.ticket, s.pc 2)) =
      some ([⟨1, false, 1⟩], [1, 0], .publish ⟨2, false, 2⟩ ⟨3, 4, 5⟩) := by
    decide +kernel
  obtain ⟨s, hs, heq⟩ := Option.map_eq_some_iff.mp hfacts
  simp only [Prod.mk.injEq] at heq
  exact ⟨s, hs, heq.1, heq.2.1, heq.2.2, driver_correct (Reachable.init.runs hs)⟩

end RiscvKernel.Virtio
