import Libesp.Stream.Conservation

/-! @esp stream | name:EventStreamConsumer | scheme:loop |
    source:src/Comms.cpp (DrainLoop), src/EventStreamIO.cpp (Drain, Flush)

    `DrainLoop` when the producers have fallen silent. Each pass takes at least one event from a ring
    that has any, and writes every string there is; the loop goes on while `runThread` is set, and then
    until a pass has seen both rings empty.

        test 0      test 1      test 2              test n
        runThread ─▶ Drain ─▶ runThread ─▶ … ─▶ !runThread && !stillBusy ─▶ Flush
                     ≥ 1 event out of the ring                             the buffer

    So it returns with everything in the file, unless the flag is clear and the writer not busy at the
    first test already: then no pass is made, and what is in the event ring stays there. -/

namespace Esp.Writer
open Event LocklessRing Memory

variable {K : Type} (mem : K → List UInt8) (disk : ℕ → ℕ)

/-- `DrainLoop` from its test number `k`, where `runThread` is the flag as its tests see it; `none` when
    it is not done after so many tests, or some call on the way not after `fuel` rounds. -/
def drainLoop (runThread : ℕ → Bool) (fuel : ℕ) : ℕ → ℕ → RawEventWriter K → Option (RawEventWriter K)
  | 0, _, _ => none
  | tests + 1, k, w =>
    if runThread k || w.stillBusy then
      (w.drain mem disk fuel).bind fun w' => drainLoop runThread fuel tests (k + 1) w'
    else w.flush mem disk fuel

variable {mem disk} {w w' : RawEventWriter K} {events : List ProfileEvent}
  {strings : List (RuntimeStringReference K)} {runThread : ℕ → Bool} {fuel : ℕ}

/-! ### A pass -/

/-- A bulk dequeue takes something from a ring that is not empty. -/
theorem SessionInv.dequeues (h : SessionInv mem ⟨w, events, strings⟩)
    (hE : events.length < 2147483647) :
    w.dequeueEvents.contextQueue.contents espMaxEventBuffer = [] ∨
      (w.dequeueEvents.contextQueue.contents espMaxEventBuffer).length <
        (w.contextQueue.contents espMaxEventBuffer).length := by
  have hfront : w.contextQueue.front = events.length := h.conserves.eventCount
  obtain ⟨k, r, he, hr, -, hk⟩ := tryDequeueBulk_spec h.conserves.eventRing (by simp only; omega)
    (espWriteBufferSize - w.writeBufferUsed).toNat
  have hqueue : w.dequeueEvents.contextQueue = r := congrArg Prod.snd he
  have hused : w.writeBufferUsed < espWriteBufferThresholdPrecompute := h.used_lt
  have hsize := threshold_lt
  have hback : modcap espMaxEventBuffer w.contextQueue.back < espMaxEventBuffer :=
    Int.tmod_lt_of_pos _ (by decide)
  rw [hqueue, hr.contents_eq, List.length_drop]
  rcases hlen : (w.contextQueue.contents espMaxEventBuffer).length with _ | n
  · left
    rw [List.eq_nil_of_length_eq_zero hlen, List.drop_nil]
  · right
    simp only at hk
    rw [hlen] at hk
    omega

/-- The last statement of `Drain`. -/
theorem drain_stillBusy (hw : w.drain mem disk fuel = some w') :
    w'.stillBusy = !(w'.contextQueue.empty espMaxEventBuffer &&
      w'.stringQueue.empty stringQueueCapacity) := by
  obtain ⟨v, -, rfl⟩ := Option.map_eq_some_iff.mp hw
  rfl

/-- A `Drain` leaves no string in the ring. -/
theorem SessionInv.drain_strings (h : SessionInv mem ⟨w, events, strings⟩)
    (hE : events.length < 2147483647) (hS : strings.length < 2147483647)
    (hw : w.drain mem disk fuel = some w') :
    w'.stringQueue.contents stringQueueCapacity = [] := by
  have hused : w.writeBufferUsed < espWriteBufferThresholdPrecompute := h.used_lt
  have hpos : 0 ≤ w.writeBufferUsed := h.used_nonneg
  have hsize := threshold_lt
  obtain ⟨hd, hge, -⟩ := h.conserves.dequeueEvents hE hpos (by simp only; omega)
  simp only at hd hge
  obtain ⟨v, hv, rfl⟩ := Option.map_eq_some_iff.mp hw
  split at hv
  · obtain ⟨hc, -, -⟩ := hd.flush (hpos.trans hge) hS hv
    exact (hc.flushStrings hS).2.2
  · obtain rfl := Option.some.inj hv
    exact (hd.flushStrings hS).2.2

/-- STEP: a `Drain` writes all strings, takes some of the events if there are any, and is busy if there
    are more. -/
theorem SessionInv.pass (h : SessionInv mem ⟨w, events, strings⟩) (hE : events.length < 2147483647)
    (hS : strings.length < 2147483647) (hw : w.drain mem disk fuel = some w') :
    SessionInv mem ⟨w', events, strings⟩ ∧
      (w'.contextQueue.contents espMaxEventBuffer = [] ∨
        (w'.contextQueue.contents espMaxEventBuffer).length <
          (w.contextQueue.contents espMaxEventBuffer).length) ∧
      (w'.stillBusy = false ↔ w'.contextQueue.contents espMaxEventBuffer = []) := by
  obtain ⟨hcons, hpos, hlt⟩ := h.conserves.drain h.used_nonneg h.used_lt hE hS hw
  have hqueue := drain_contextQueue hw
  refine ⟨⟨hcons, hpos, hlt⟩, hqueue ▸ h.dequeues hE, ?_⟩
  have hstrings := h.drain_strings hE hS hw
  have hbusy := drain_stillBusy hw
  have hevents := empty_iff hcons.eventRing
  have hempty := (empty_iff hcons.stringRing).mpr hstrings
  rw [← hevents, hbusy, RingQueue.empty, RingQueue.empty, hempty, Bool.and_true,
    Bool.not_eq_false']

/-! ### The loop -/

/-- More tests, and more rounds within a call, change nothing. -/
theorem drainLoop_mono {m n f g k : ℕ} (hmn : m ≤ n) (hfg : f ≤ g)
    (h : drainLoop mem disk runThread f m k w = some w') :
    drainLoop mem disk runThread g n k w = some w' := by
  induction m generalizing n k w with
  | zero => cases h
  | succ m ih =>
    obtain ⟨n, rfl⟩ : ∃ j, n = j + 1 := ⟨n - 1, by omega⟩
    rw [drainLoop] at h ⊢
    split at h
    · rename_i hgo
      obtain ⟨v, hv, hrest⟩ := Option.bind_eq_some_iff.mp h
      rw [if_pos hgo, drain_mono hfg hv, Option.bind_some]
      exact ih (by omega) hrest
    · rename_i hgo
      rw [if_neg hgo]
      exact flush_mono hfg h

/-- The writer has seen what there is: it is busy, or the event ring is empty. -/
def Seen (w : RawEventWriter K) : Prop :=
  w.stillBusy = false → w.contextQueue.contents espMaxEventBuffer = []

/-- The last `Flush`: the file has everything that is not in the event ring. -/
theorem SessionInv.last (h : SessionInv mem ⟨w, events, strings⟩)
    (hS : strings.length < 2147483647) (hw : w.flush mem disk fuel = some w') :
    eventsOf w'.outputFile ++ w.contextQueue.contents espMaxEventBuffer = events ∧
      stringsOf w'.outputFile = strings.map (stored mem) := by
  obtain ⟨hcons, -, hempty⟩ := h.conserves.flush h.used_nonneg hS hw
  have hevents := hcons.events_eq
  have hstrings := hcons.strings_eq
  rw [hempty, List.map_nil, List.append_nil] at hstrings
  rw [flush_contextQueue hw] at hevents
  exact ⟨(congrArg (· ++ _) (List.append_nil _)).symm.trans hevents, hstrings⟩

/-- RETURNS: the test that ends the loop. -/
theorem SessionInv.exits (h : SessionInv mem ⟨w, events, strings⟩)
    (hdisk : ∀ n, ∃ m, n ≤ m ∧ 0 < disk m) (hS : strings.length < 2147483647) {k : ℕ}
    (hgo : (runThread k || w.stillBusy) = false) :
    ∃ tests fuel w', drainLoop mem disk runThread fuel tests k w = some w' ∧
      eventsOf w'.outputFile ++ w.contextQueue.contents espMaxEventBuffer = events ∧
      stringsOf w'.outputFile = strings.map (stored mem) := by
  obtain ⟨n, w', hw⟩ := flush_returns mem hdisk w
  refine ⟨1, n, w', ?_, h.last hS hw⟩
  rw [drainLoop, if_neg (by rw [hgo]; exact Bool.false_ne_true)]
  exact hw

/-- RETURNS: from a test on which the writer has seen what there is, the loop returns with everything in
    the file. The induction is on the tests that may still find the flag set, the events in the ring,
    and one more pass that a busy writer makes. -/
theorem drainLoop_seen (hdisk : ∀ n, ∃ m, n ≤ m ∧ 0 < disk m) {stop : ℕ}
    (hstop : ∀ k, stop ≤ k → runThread k = false) (hE : events.length < 2147483647)
    (hS : strings.length < 2147483647) (left k : ℕ) (w : RawEventWriter K)
    (h : SessionInv mem ⟨w, events, strings⟩) (hseen : Seen w)
    (hleft : (stop - k) + (w.contextQueue.contents espMaxEventBuffer).length +
      (if w.stillBusy then 1 else 0) ≤ left) :
    ∃ tests fuel w', drainLoop mem disk runThread fuel tests k w = some w' ∧
      eventsOf w'.outputFile = events ∧ stringsOf w'.outputFile = strings.map (stored mem) := by
  induction left generalizing k w with
  | zero =>
    have hbusy : w.stillBusy = false := by
      by_contra hb
      rw [if_pos (eq_true_of_ne_false hb)] at hleft
      omega
    have hgo : (runThread k || w.stillBusy) = false :=
      Bool.or_eq_false_iff.mpr ⟨hstop k (by omega), hbusy⟩
    obtain ⟨tests, fuel, w', hw', hfile⟩ := h.exits hdisk hS hgo
    rw [hseen hbusy, List.append_nil] at hfile
    exact ⟨tests, fuel, w', hw', hfile⟩
  | succ left ih =>
    rcases hgo : runThread k || w.stillBusy with _ | _
    · obtain ⟨tests, fuel, w', hw', hfile⟩ := h.exits hdisk hS hgo
      rw [hseen (Bool.or_eq_false_iff.mp hgo).2, List.append_nil] at hfile
      exact ⟨tests, fuel, w', hw', hfile⟩
    · obtain ⟨m, v, hv⟩ := drain_returns mem hdisk w
      obtain ⟨h', htaken, hbusy⟩ := h.pass hE hS hv
      -- a pass uses up a test with the flag set, or what a busy writer had before it
      have hless : (stop - (k + 1)) + (v.contextQueue.contents espMaxEventBuffer).length +
          (if v.stillBusy then 1 else 0) ≤ left := by
        have hwork : (v.contextQueue.contents espMaxEventBuffer).length +
            (if v.stillBusy then 1 else 0) ≤ (w.contextQueue.contents espMaxEventBuffer).length := by
          rcases htaken with hnil | hlt
          · rw [hbusy.mpr hnil, hnil]
            exact Nat.zero_le _
          · split <;> omega
        rcases Bool.or_eq_true _ _ |>.mp hgo with hrun | hb
        · have hk : k < stop := by
            by_contra hk
            rw [hstop k (by omega)] at hrun
            cases hrun
          omega
        · rw [if_pos hb] at hleft
          omega
      obtain ⟨tests, fuel, w', hw', hfile⟩ := ih (k + 1) v h' hbusy.mp hless
      refine ⟨tests + 1, max m fuel, w', ?_, hfile⟩
      rw [drainLoop, if_pos hgo, drain_mono (le_max_left m fuel) hv, Option.bind_some]
      exact drainLoop_mono (le_refl _) (le_max_right m fuel) hw'

/-- RETURNS: from a test on which it makes a pass, the loop returns with everything in the file. -/
theorem drainLoop_passes (hdisk : ∀ n, ∃ m, n ≤ m ∧ 0 < disk m) {stop : ℕ}
    (hstop : ∀ k, stop ≤ k → runThread k = false) (h : SessionInv mem ⟨w, events, strings⟩)
    (hE : events.length < 2147483647) (hS : strings.length < 2147483647) {k : ℕ}
    (hgo : (runThread k || w.stillBusy) = true) :
    ∃ tests fuel w', (∀ n f, tests ≤ n → fuel ≤ f →
        drainLoop mem disk runThread f n k w = some w') ∧
      eventsOf w'.outputFile = events ∧ stringsOf w'.outputFile = strings.map (stored mem) := by
  -- after the first pass the writer has seen what there is
  obtain ⟨m, v, hv⟩ := drain_returns mem hdisk w
  obtain ⟨h', -, hbusy⟩ := h.pass hE hS hv
  obtain ⟨tests, fuel, w', hw', hfile⟩ :=
    drainLoop_seen hdisk hstop hE hS _ (k + 1) v h' hbusy.mp (le_refl _)
  refine ⟨tests + 1, max m fuel, w', ?_, hfile⟩
  intro n f hn hf
  refine drainLoop_mono hn hf ?_
  rw [drainLoop, if_pos hgo, drain_mono (le_max_left m fuel) hv, Option.bind_some]
  exact drainLoop_mono (le_refl _) (le_max_right m fuel) hw'

/-- EXACT: with the producers silent, the flag cleared at some time and a disk that takes something again
    and again, `DrainLoop` returns with all strings in the file, and all events exactly when it makes a
    pass or finds the event ring empty. -/
theorem drainLoop_iff (hdisk : ∀ n, ∃ m, n ≤ m ∧ 0 < disk m) {stop : ℕ}
    (hstop : ∀ k, stop ≤ k → runThread k = false) (h : SessionInv mem ⟨w, events, strings⟩)
    (hE : events.length < 2147483647) (hS : strings.length < 2147483647) :
    ∃ tests fuel w', (∀ n f, tests ≤ n → fuel ≤ f →
        drainLoop mem disk runThread f n 0 w = some w') ∧
      stringsOf w'.outputFile = strings.map (stored mem) ∧
      eventsOf w'.outputFile <+: events ∧
      (eventsOf w'.outputFile = events ↔ runThread 0 = true ∨ w.stillBusy = true ∨
        w.contextQueue.contents espMaxEventBuffer = []) := by
  rcases hgo : runThread 0 || w.stillBusy with _ | _
  · obtain ⟨tests, fuel, w', hw', hevents, hstrings⟩ := h.exits hdisk hS hgo
    obtain ⟨hrun, hbusy⟩ := Bool.or_eq_false_iff.mp hgo
    refine ⟨tests, fuel, w', fun n f hn hf => drainLoop_mono hn hf hw', hstrings, ?_, ?_⟩
    · rw [← hevents]
      exact List.prefix_append _ _
    · rw [hrun, hbusy, ← hevents]
      constructor
      · exact fun hall => Or.inr (Or.inr (List.append_right_eq_self.mp hall.symm))
      · rintro (hf | hf | hnil)
        · cases hf
        · cases hf
        · rw [hnil, List.append_nil]
  · obtain ⟨tests, fuel, w', hw', hevents, hstrings⟩ := drainLoop_passes hdisk hstop h hE hS hgo
    refine ⟨tests, fuel, w', hw', hstrings, hevents ▸ List.prefix_refl _, iff_of_true hevents ?_⟩
    rcases Bool.or_eq_true _ _ |>.mp hgo with hrun | hb
    · exact Or.inl hrun
    · exact Or.inr (Or.inl hb)

/-- A writer whose event ring has one event. -/
def waiting : Session ℕ :=
  (Session.new (fun _ => tick 0) (fun _ => ⟨0, 0⟩) fun _ => tick 0).enqueueEvent (tick 7)

/-- A disk that takes one event a call. -/
def oneAtATime : ℕ → ℕ := fun _ => 1

theorem drainLoop_iff_waiting : ∃ tests fuel w',
    drainLoop (fun _ => []) oneAtATime (fun k => k == 0) fuel tests 0 waiting.writer = some w' ∧
      eventsOf w'.outputFile = [tick 7] := by
  have hnew : SessionInv (fun _ : ℕ => []) (Session.new (fun _ => tick 0) (fun _ => ⟨0, 0⟩)
      fun _ => tick 0) := sessionInv_new _ _ _
  have h : SessionInv (fun _ : ℕ => []) waiting :=
    ⟨hnew.conserves.offerEvent (by decide) (tick 7), hnew.used_nonneg, hnew.used_lt⟩
  have hdisk : ∀ n, ∃ m, n ≤ m ∧ 0 < oneAtATime m := fun n => ⟨n, le_refl n, Nat.one_pos⟩
  have hstop : ∀ k, 1 ≤ k → (fun k => k == 0) k = false := fun k hk =>
    beq_false_of_ne (Nat.ne_of_gt hk)
  obtain ⟨tests, fuel, w', hw', -, -, hall⟩ := drainLoop_iff hdisk hstop h (by decide) (by decide)
  exact ⟨tests, fuel, w', hw' tests fuel (le_refl _) (le_refl _), hall.mpr (Or.inl rfl)⟩

end Esp.Writer
