import Libesp.Schemes.Machine
import Libesp.Stream.RawEventWriter

/-! @esp stream | name:RawEventWriter | scheme:conservation |
    source:src/EventStreamIO.cpp (Flush, Drain, FlushStrings), src/ESPConfig.h

    Whole sequences of calls on the writer: accepted enqueues, `Drain` and `Flush`, in any order. The
    buffer is flushed before it can be too full for another block, so between two calls

        file ++ writeBuffer[0, used) ++ event ring = accepted events,    used < threshold

    and the same for the strings without the buffer. `Flush` returns when the disk, which may refuse
    any number of writes, takes something again and again. -/

namespace Esp.Writer
open Event LocklessRing Memory Machine

variable {K : Type} (mem : K → List UInt8) (disk : ℕ → ℕ)

inductive Call (K : Type) where
  | enqueueEvent (e : ProfileEvent)
  | enqueueString (s : RuntimeStringReference K)
  | drain
  | flush

/-- The writer with the events and strings its rings have accepted, in order. -/
structure Session (K : Type) where
  writer : RawEventWriter K
  events : List ProfileEvent
  strings : List (RuntimeStringReference K)

def Session.new (junk : ℤ → ProfileEvent) (junk' : ℤ → RuntimeStringReference K)
    (junk'' : ℤ → ProfileEvent) : Session K :=
  ⟨RawEventWriter.new (RingQueue.new junk) (RingQueue.new junk') junk'', [], []⟩

/-- Offer an event to the event ring. -/
def Session.enqueueEvent (s : Session K) (e : ProfileEvent) : Session K :=
  let got := s.writer.contextQueue.tryEnqueue espMaxEventBuffer e
  { s with
    writer := { s.writer with contextQueue := got.2 }
    events := if got.1 then s.events ++ [e] else s.events }

/-- Offer a string reference to the string ring. -/
def Session.enqueueString (s : Session K) (r : RuntimeStringReference K) : Session K :=
  let got := s.writer.stringQueue.tryEnqueue stringQueueCapacity r
  { s with
    writer := { s.writer with stringQueue := got.2 }
    strings := if got.1 then s.strings ++ [r] else s.strings }

/-- One call; `none` when it is a `Drain` or `Flush` still running after `fuel` rounds. -/
def call (fuel : ℕ) (s : Session K) : Call K → Option (Session K)
  | .enqueueEvent e => some (s.enqueueEvent e)
  | .enqueueString r => some (s.enqueueString r)
  | .drain => (s.writer.drain mem disk fuel).map fun w => { s with writer := w }
  | .flush => (s.writer.flush mem disk fuel).map fun w => { s with writer := w }

def Call.isEvent : Call K → Bool
  | .enqueueEvent _ => true
  | _ => false

def Call.isString : Call K → Bool
  | .enqueueString _ => true
  | _ => false

/-- The calls to come keep both rings below the last `int`. -/
structure Fits (s : Session K) (calls : List (Call K)) : Prop where
  events : s.events.length + calls.countP Call.isEvent < 2147483647
  strings : s.strings.length + calls.countP Call.isString < 2147483647

/-- INVARIANT: what holds between two calls. -/
structure SessionInv (s : Session K) : Prop where
  conserves : Conserves mem s.writer 0 s.writer.writeBufferUsed s.events s.strings
  used_nonneg : 0 ≤ s.writer.writeBufferUsed
  used_lt : s.writer.writeBufferUsed < espWriteBufferThresholdPrecompute

/-- Nothing is lost, repeated or reordered, and the next bulk dequeue has room and keeps to it. -/
structure Conserved (s : Session K) : Prop where
  events : eventsOf s.writer.outputFile ++
    slice s.writer.writeBuffer 0 s.writer.writeBufferUsed.toNat ++
    s.writer.contextQueue.contents espMaxEventBuffer = s.events
  strings : stringsOf s.writer.outputFile ++
    (s.writer.stringQueue.contents stringQueueCapacity).map (stored mem) =
      s.strings.map (stored mem)
  used_nonneg : 0 ≤ s.writer.writeBufferUsed
  used_lt : s.writer.writeBufferUsed < espWriteBufferThresholdPrecompute
  room : 0 < espWriteBufferSize - s.writer.writeBufferUsed
  dequeued_le : s.writer.dequeueEvents.writeBufferUsed ≤ espWriteBufferSize
  dequeued_inside : ∀ a, a < 0 ∨ espWriteBufferSize ≤ a →
    s.writer.dequeueEvents.writeBuffer a = s.writer.writeBuffer a

variable {mem disk} {w w' : RawEventWriter K} {events : List ProfileEvent}
  {strings : List (RuntimeStringReference K)}

/-! ### FlushStrings -/

/-- As many rounds as there are strings empty the string ring. -/
theorem flushStringsLoop_spec {written toWrite : ℤ} (hN : strings.length < 2147483647) (n : ℕ)
    (h : Conserves mem w written toWrite events strings)
    (hn : (w.stringQueue.contents stringQueueCapacity).length ≤ n) :
    Conserves mem (flushStringsLoop mem n w) written toWrite events strings ∧
      (flushStringsLoop mem n w).writeBufferUsed = w.writeBufferUsed ∧
      (flushStringsLoop mem n w).stringQueue.contents stringQueueCapacity = [] := by
  induction n generalizing w with
  | zero => exact ⟨h, rfl, List.eq_nil_of_length_eq_zero (Nat.le_zero.mp hn)⟩
  | succ n ih =>
    rw [flushStringsLoop]
    rcases hs : w.flushString mem with _ | w'
    · exact ⟨h, rfl, h.flushString_none hN hs⟩
    · obtain ⟨h', hused, -, hlen⟩ := h.flushString hN hs
      obtain ⟨hc, hu, he⟩ := ih h' (by omega)
      exact ⟨hc, hu.trans hused, he⟩

theorem Conserves.flushStrings {written toWrite : ℤ} (hN : strings.length < 2147483647)
    (h : Conserves mem w written toWrite events strings) :
    Conserves mem (w.flushStrings mem) written toWrite events strings ∧
      (w.flushStrings mem).writeBufferUsed = w.writeBufferUsed ∧
      (w.flushStrings mem).stringQueue.contents stringQueueCapacity = [] := by
  have hroom := h.stringRing.room
  exact flushStringsLoop_spec hN _ h (by omega)

/-! ### Flush -/

/-- `Flush` leaves nothing to write. -/
theorem flushLoop_spec (n : ℕ) {written toWrite : ℤ}
    (h : Conserves mem w written toWrite events strings) (h0 : 0 ≤ toWrite)
    (hr : flushLoop disk n w toWrite written = some w') :
    Conserves mem w' (written + toWrite) 0 events strings := by
  induction n generalizing w written toWrite with
  | zero => cases hr
  | succ n ih =>
    have hstep := h.fwriteEvents disk h0
    have hle : (w.fwriteEvents disk written toWrite).1 ≤ toWrite := min_le_right _ _
    rw [flushLoop] at hr
    split at hr
    · have hrest := ih hstep (by omega) hr
      rwa [show written + (w.fwriteEvents disk written toWrite).1 +
        (toWrite - (w.fwriteEvents disk written toWrite).1) = written + toWrite by ring] at hrest
    · cases hr
      have hall : (w.fwriteEvents disk written toWrite).1 = toWrite := by omega
      rwa [hall, sub_self] at hstep

/-- More rounds do not change the outcome. -/
theorem flushLoop_mono {m n : ℕ} {written toWrite : ℤ} (hmn : m ≤ n)
    (hr : flushLoop disk m w toWrite written = some w') :
    flushLoop disk n w toWrite written = some w' := by
  induction m generalizing n w written toWrite with
  | zero => cases hr
  | succ m ih =>
    obtain ⟨n, rfl⟩ : ∃ k, n = k + 1 := ⟨n - 1, by omega⟩
    rw [flushLoop] at hr ⊢
    split at hr
    · rename_i hc
      rw [if_pos hc]
      exact ih (by omega) hr
    · rename_i hc
      rwa [if_neg hc]

/-- A call returns if it is done after one round, or returns after the rounds to come. -/
theorem flushLoop_round (w : RawEventWriter K) (written toWrite : ℤ)
    (hnext : 0 < toWrite - (w.fwriteEvents disk written toWrite).1 →
      ∃ n w', flushLoop disk n (w.fwriteEvents disk written toWrite).2
        (toWrite - (w.fwriteEvents disk written toWrite).1)
        (written + (w.fwriteEvents disk written toWrite).1) = some w') :
    ∃ n w', flushLoop disk n w toWrite written = some w' := by
  rcases Int.lt_or_le 0 (toWrite - (w.fwriteEvents disk written toWrite).1) with hmore | hdone
  · obtain ⟨n, w', hn⟩ := hnext hmore
    exact ⟨n + 1, w', by rw [flushLoop, if_pos hmore, hn]⟩
  · exact ⟨1, _, by rw [flushLoop, if_neg (by omega)]⟩

/-- RETURNS: the loop ends when the disk keeps taking something. The outer induction is on what is
    left to write, the inner one on the calls until the disk takes something. -/
theorem flushLoop_returns (hdisk : ∀ n, ∃ m, n ≤ m ∧ 0 < disk m) (left : ℕ)
    (w : RawEventWriter K) (written toWrite : ℤ) (hleft : toWrite ≤ left) :
    ∃ n w', flushLoop disk n w toWrite written = some w' := by
  induction left generalizing w written toWrite with
  | zero =>
    refine flushLoop_round w written toWrite ?_
    intro hmore
    simp only [RawEventWriter.fwriteEvents] at hmore
    omega
  | succ left ih =>
    obtain ⟨m, hm, hpos⟩ := hdisk w.fwrites
    obtain ⟨wait, rfl⟩ := Nat.exists_eq_add_of_le hm
    induction wait generalizing w written toWrite with
    | zero =>
      refine flushLoop_round w written toWrite fun hmore => ih _ _ _ ?_
      simp only [RawEventWriter.fwriteEvents, add_zero] at hmore hpos ⊢
      omega
    | succ wait ihw =>
      refine flushLoop_round w written toWrite fun hmore => ihw _ _ _ ?_ ?_ ?_
      · simp only [RawEventWriter.fwriteEvents] at hmore ⊢
        omega
      · simp only [RawEventWriter.fwriteEvents]
        omega
      · have hcalls : w.fwrites + 1 + wait = w.fwrites + (wait + 1) := by omega
        simp only [RawEventWriter.fwriteEvents, hcalls]
        exact hpos

/-- With nothing to write it does not matter from where. -/
theorem Conserves.rewind {written : ℤ} (h : Conserves mem w written 0 events strings) :
    Conserves mem { w with writeBufferUsed := 0 } 0 0 events strings :=
  { h with events_eq := h.events_eq }

theorem Conserves.flush (h : Conserves mem w 0 w.writeBufferUsed events strings)
    (h0 : 0 ≤ w.writeBufferUsed) (hN : strings.length < 2147483647) {fuel : ℕ}
    (hr : w.flush mem disk fuel = some w') :
    Conserves mem w' 0 0 events strings ∧ w'.writeBufferUsed = 0 ∧
      w'.stringQueue.contents stringQueueCapacity = [] := by
  obtain ⟨v, hv, rfl⟩ := Option.map_eq_some_iff.mp hr
  have hloop := flushLoop_spec fuel h h0 hv
  exact hloop.rewind.flushStrings hN

theorem flush_mono {m n : ℕ} (hmn : m ≤ n) (hr : w.flush mem disk m = some w') :
    w.flush mem disk n = some w' := by
  obtain ⟨v, hv, rfl⟩ := Option.map_eq_some_iff.mp hr
  exact Option.map_eq_some_iff.mpr ⟨v, flushLoop_mono hmn hv, rfl⟩

variable (mem) in
theorem flush_returns (hdisk : ∀ n, ∃ m, n ≤ m ∧ 0 < disk m) (w : RawEventWriter K) :
    ∃ n w', w.flush mem disk n = some w' := by
  obtain ⟨n, v, hv⟩ := flushLoop_returns hdisk w.writeBufferUsed.toNat w 0 w.writeBufferUsed
    (by omega)
  exact ⟨n, _, Option.map_eq_some_iff.mpr ⟨v, hv, rfl⟩⟩

theorem flushStringsLoop_contextQueue (n : ℕ) (w : RawEventWriter K) :
    (flushStringsLoop mem n w).contextQueue = w.contextQueue := by
  induction n generalizing w with
  | zero => rfl
  | succ n ih =>
    rw [flushStringsLoop]
    rcases hs : w.flushString mem with _ | w'
    · rfl
    · refine (ih w').trans ?_
      unfold RawEventWriter.flushString at hs
      split at hs
      · cases hs
      · obtain rfl := Option.some.inj hs
        rfl

theorem flushLoop_contextQueue (n : ℕ) {toWrite written : ℤ}
    (hr : flushLoop disk n w toWrite written = some w') : w'.contextQueue = w.contextQueue := by
  induction n generalizing w toWrite written with
  | zero => cases hr
  | succ n ih =>
    rw [flushLoop] at hr
    split at hr
    · exact (ih hr).trans rfl
    · obtain rfl := Option.some.inj hr
      rfl

theorem flush_contextQueue {fuel : ℕ} (hr : w.flush mem disk fuel = some w') :
    w'.contextQueue = w.contextQueue := by
  obtain ⟨v, hv, rfl⟩ := Option.map_eq_some_iff.mp hr
  have hloop := flushLoop_contextQueue fuel hv
  exact (flushStringsLoop_contextQueue _ _).trans hloop

/-! ### Drain -/

theorem threshold_lt : (espWriteBufferThresholdPrecompute : ℤ) < espWriteBufferSize := by decide

/-- A `Drain` ends below the threshold: either it did not reach it, or it flushed. -/
theorem Conserves.drain (h : Conserves mem w 0 w.writeBufferUsed events strings)
    (h0 : 0 ≤ w.writeBufferUsed) (hlt : w.writeBufferUsed < espWriteBufferThresholdPrecompute)
    (hE : events.length < 2147483647) (hS : strings.length < 2147483647) {fuel : ℕ}
    (hr : w.drain mem disk fuel = some w') :
    Conserves mem w' 0 w'.writeBufferUsed events strings ∧ 0 ≤ w'.writeBufferUsed ∧
      w'.writeBufferUsed < espWriteBufferThresholdPrecompute := by
  have hsize := threshold_lt
  obtain ⟨hd, hge, hle⟩ := h.dequeueEvents hE h0 (by omega)
  obtain ⟨v, hv, rfl⟩ := Option.map_eq_some_iff.mp hr
  have hmid : Conserves mem v 0 v.writeBufferUsed events strings ∧ 0 ≤ v.writeBufferUsed ∧
      v.writeBufferUsed < espWriteBufferThresholdPrecompute := by
    split at hv
    · obtain ⟨hc, hu, -⟩ := hd.flush (by omega) hS hv
      rw [hu]
      exact ⟨hc, le_refl _, by decide⟩
    · rename_i hover
      cases hv
      simp only [RawEventWriter.overThreshold, ge_iff_le, decide_eq_true_eq, not_le] at hover
      exact ⟨hd, by omega, hover⟩
  obtain ⟨hc, hpos, hbelow⟩ := hmid
  obtain ⟨hs, hu, -⟩ := hc.flushStrings hS
  rw [← hu] at hpos hbelow hs
  exact ⟨{ hs with }, hpos, hbelow⟩

theorem drain_mono {m n : ℕ} (hmn : m ≤ n) (hr : w.drain mem disk m = some w') :
    w.drain mem disk n = some w' := by
  obtain ⟨v, hv, rfl⟩ := Option.map_eq_some_iff.mp hr
  refine Option.map_eq_some_iff.mpr ⟨v, ?_, rfl⟩
  split at hv
  · rename_i hover
    rw [if_pos hover]
    exact flush_mono hmn hv
  · rename_i hover
    rwa [if_neg hover]

variable (mem) in
theorem drain_returns (hdisk : ∀ n, ∃ m, n ≤ m ∧ 0 < disk m) (w : RawEventWriter K) :
    ∃ n w', w.drain mem disk n = some w' := by
  rcases hover : w.dequeueEvents.overThreshold with _ | _
  · exact ⟨0, _, by simp only [RawEventWriter.drain, hover]; rfl⟩
  · obtain ⟨n, v, hv⟩ := flush_returns mem hdisk w.dequeueEvents
    exact ⟨n, _, by simp only [RawEventWriter.drain, hover, hv]; rfl⟩

/-- After its first statement a `Drain` leaves the event ring alone. -/
theorem drain_contextQueue {fuel : ℕ} (hr : w.drain mem disk fuel = some w') :
    w'.contextQueue = w.dequeueEvents.contextQueue := by
  obtain ⟨v, hv, rfl⟩ := Option.map_eq_some_iff.mp hr
  refine (flushStringsLoop_contextQueue _ v).trans ?_
  split at hv
  · exact flush_contextQueue hv
  · obtain rfl := Option.some.inj hv
    rfl

/-! ### Sequences of calls -/

variable {s s' : Session K} {c : Call K} {calls : List (Call K)}

theorem sessionInv_new (junk junk' junk'') :
    SessionInv mem (Session.new junk junk' junk'' : Session K) where
  conserves := conserves_new junk junk' junk''
  used_nonneg := le_refl _
  used_lt := show (0 : ℤ) < espWriteBufferThresholdPrecompute by decide

/-- An offered event is accepted into the log or leaves everything as it was. -/
theorem Conserves.offerEvent {written toWrite : ℤ}
    (h : Conserves mem s.writer written toWrite s.events s.strings)
    (hE : s.events.length < 2147483647) (e : ProfileEvent) :
    Conserves mem (s.enqueueEvent e).writer written toWrite (s.enqueueEvent e).events s.strings := by
  rcases ha : (s.writer.contextQueue.tryEnqueue espMaxEventBuffer e).1 with _ | _
  · simp only [Session.enqueueEvent, ha, tryEnqueue_refused ha]
    exact h
  · simp only [Session.enqueueEvent, ha, if_true]
    exact h.enqueueEvent hE ha

theorem Conserves.offerString {written toWrite : ℤ}
    (h : Conserves mem s.writer written toWrite s.events s.strings)
    (hS : s.strings.length < 2147483647) (r : RuntimeStringReference K) :
    Conserves mem (s.enqueueString r).writer written toWrite s.events
      (s.enqueueString r).strings := by
  rcases ha : (s.writer.stringQueue.tryEnqueue stringQueueCapacity r).1 with _ | _
  · simp only [Session.enqueueString, ha, tryEnqueue_refused ha]
    exact h
  · simp only [Session.enqueueString, ha, if_true]
    exact h.enqueueString hS ha

/-- The log of accepted events grows by at most the one offered. -/
theorem enqueueEvent_length (s : Session K) (e : ProfileEvent) :
    s.events.length ≤ (s.enqueueEvent e).events.length ∧
      (s.enqueueEvent e).events.length ≤ s.events.length + 1 := by
  simp only [Session.enqueueEvent]
  split <;> simp

theorem enqueueString_length (s : Session K) (r : RuntimeStringReference K) :
    s.strings.length ≤ (s.enqueueString r).strings.length ∧
      (s.enqueueString r).strings.length ≤ s.strings.length + 1 := by
  simp only [Session.enqueueString]
  split <;> simp

/-- STEP: a call that returns keeps the invariant, and fewer calls are left to fit. -/
theorem call_spec {fuel : ℕ} (h : SessionInv mem s) (hf : Fits s (c :: calls))
    (hc : call mem disk fuel s c = some s') : SessionInv mem s' ∧ Fits s' calls := by
  obtain ⟨hE, hS⟩ := hf
  rw [List.countP_cons] at hE hS
  cases c with
  | enqueueEvent e =>
    simp only [Call.isEvent, Call.isString, if_true] at hE hS
    obtain rfl := Option.some.inj hc
    have hlen := (enqueueEvent_length s e).2
    exact ⟨⟨h.conserves.offerEvent (by omega) e, h.used_nonneg, h.used_lt⟩, by omega,
      by simpa [Session.enqueueEvent] using hS⟩
  | enqueueString r =>
    simp only [Call.isEvent, Call.isString, if_true] at hE hS
    obtain rfl := Option.some.inj hc
    have hlen := (enqueueString_length s r).2
    exact ⟨⟨h.conserves.offerString (by omega) r, h.used_nonneg, h.used_lt⟩,
      by simpa [Session.enqueueString] using hE, by omega⟩
  | drain =>
    simp only [Call.isEvent, Call.isString] at hE hS
    obtain ⟨w, hw, rfl⟩ := Option.map_eq_some_iff.mp hc
    obtain ⟨h1, h2, h3⟩ := h.conserves.drain h.used_nonneg h.used_lt (by omega) (by omega) hw
    exact ⟨⟨h1, h2, h3⟩, by simpa using hE, by simpa using hS⟩
  | flush =>
    simp only [Call.isEvent, Call.isString] at hE hS
    obtain ⟨w, hw, rfl⟩ := Option.map_eq_some_iff.mp hc
    obtain ⟨h1, h2, -⟩ := h.conserves.flush h.used_nonneg (by omega) hw
    refine ⟨⟨?_, ?_, ?_⟩, by simpa using hE, by simpa using hS⟩
    · simp only [h2]; exact h1
    · simp only [h2]; exact le_refl _
    · simp only [h2]; decide

/-- More rounds do not change what a call does. -/
theorem call_mono {m n : ℕ} (hmn : m ≤ n) (hc : call mem disk m s c = some s') :
    call mem disk n s c = some s' := by
  cases c with
  | enqueueEvent e => exact hc
  | enqueueString r => exact hc
  | drain =>
    obtain ⟨w, hw, rfl⟩ := Option.map_eq_some_iff.mp hc
    exact Option.map_eq_some_iff.mpr ⟨w, drain_mono hmn hw, rfl⟩
  | flush =>
    obtain ⟨w, hw, rfl⟩ := Option.map_eq_some_iff.mp hc
    exact Option.map_eq_some_iff.mpr ⟨w, flush_mono hmn hw, rfl⟩

/-- RETURNS: every call returns. -/
theorem call_returns (hdisk : ∀ n, ∃ m, n ≤ m ∧ 0 < disk m) (s : Session K) (c : Call K) :
    ∃ n s', call mem disk n s c = some s' := by
  cases c with
  | enqueueEvent e => exact ⟨0, _, rfl⟩
  | enqueueString r => exact ⟨0, _, rfl⟩
  | drain =>
    obtain ⟨n, w, hw⟩ := drain_returns mem hdisk s.writer
    exact ⟨n, _, Option.map_eq_some_iff.mpr ⟨w, hw, rfl⟩⟩
  | flush =>
    obtain ⟨n, w, hw⟩ := flush_returns mem hdisk s.writer
    exact ⟨n, _, Option.map_eq_some_iff.mpr ⟨w, hw, rfl⟩⟩

theorem run_call_mono {m n : ℕ} (hmn : m ≤ n) (hr : run (call mem disk m) s calls = some s') :
    run (call mem disk n) s calls = some s' := by
  induction calls generalizing s with
  | nil => exact hr
  | cons c calls ih =>
    obtain ⟨t, hc, hr'⟩ := run_cons_some.mp hr
    exact run_cons_some.mpr ⟨t, call_mono hmn hc, ih hr'⟩

theorem run_call_returns (hdisk : ∀ n, ∃ m, n ≤ m ∧ 0 < disk m) (s : Session K)
    (calls : List (Call K)) : ∃ n s', run (call mem disk n) s calls = some s' := by
  induction calls generalizing s with
  | nil => exact ⟨0, s, rfl⟩
  | cons c calls ih =>
    obtain ⟨m, t, hc⟩ := call_returns hdisk s c
    obtain ⟨n, s', hr⟩ := ih t
    exact ⟨max m n, s', run_cons_some.mpr
      ⟨t, call_mono (le_max_left m n) hc, run_call_mono (le_max_right m n) hr⟩⟩

/-- RUN: the invariant along a sequence of calls. -/
theorem sessionInv_run {fuel : ℕ} (h : SessionInv mem s) (hf : Fits s calls)
    (hr : run (call mem disk fuel) s calls = some s') : SessionInv mem s' ∧ Fits s' [] := by
  induction calls generalizing s with
  | nil => cases hr; exact ⟨h, hf⟩
  | cons c calls ih =>
    obtain ⟨t, hc, hr'⟩ := run_cons_some.mp hr
    obtain ⟨ht, hft⟩ := call_spec h hf hc
    exact ih ht hft hr'

/-- What the invariant gives between calls and inside the next `Drain`. -/
theorem SessionInv.conserved (h : SessionInv mem s) (hf : Fits s []) : Conserved mem s := by
  have hsize := threshold_lt
  have hlt := h.used_lt
  have hE := hf.events
  obtain ⟨hd, hge, hle⟩ := h.conserves.dequeueEvents (by omega) h.used_nonneg (by omega)
  refine ⟨h.conserves.events_eq, h.conserves.strings_eq, h.used_nonneg, hlt, by omega, hle, ?_⟩
  intro a ha
  have h0 := h.used_nonneg
  have hused : s.writer.dequeueEvents.writeBufferUsed = s.writer.writeBufferUsed + _ := rfl
  simp only [RawEventWriter.dequeueEvents, blit] at hused hle ⊢
  split
  · rw [List.getElem?_eq_none (by omega), Option.getD_none]
  · rfl

/-- CORRECT: every sequence of calls returns, and keeps every accepted event and string once and in
    order, whatever the disk answers. -/
theorem conserved_run (junk : ℤ → ProfileEvent) (junk' : ℤ → RuntimeStringReference K)
    (junk'' : ℤ → ProfileEvent) (hdisk : ∀ n, ∃ m, n ≤ m ∧ 0 < disk m)
    (hE : calls.countP Call.isEvent < 2147483647)
    (hS : calls.countP Call.isString < 2147483647) :
    (∃ fuel s, run (call mem disk fuel) (Session.new junk junk' junk'') calls = some s) ∧
    ∀ fuel s, run (call mem disk fuel) (Session.new junk junk' junk'') calls = some s →
      Conserved mem s := by
  refine ⟨run_call_returns hdisk _ calls, ?_⟩
  intro fuel s hr
  obtain ⟨h, hf⟩ := sessionInv_run (sessionInv_new junk junk' junk'')
    ⟨by simpa [Session.new] using hE, by simpa [Session.new] using hS⟩ hr
  exact h.conserved hf

/-- A disk that refuses every other write and takes one event of the others. -/
def stutter (n : ℕ) : ℕ := n % 2

def tick (id : UInt32) : ProfileEvent := ⟨⟨EV_PROBE_UINT, id⟩, ⟨0, 0, 0, 0, 0, id⟩⟩

/-- Two events and a name, drained and flushed through the stuttering disk. -/
def drainTwo : List (Call ℕ) :=
  [.enqueueEvent (tick 1), .enqueueString ⟨0, 0⟩, .drain, .enqueueEvent (tick 2), .drain, .flush]

theorem conserved_run_drainTwo : ∃ fuel s,
    run (call (fun _ => [104, 105]) stutter fuel)
      (Session.new (fun _ => tick 0) (fun _ => ⟨0, 0⟩) fun _ => tick 0) drainTwo = some s ∧
    s.writer.outputFile = [.string 0 [104, 105], .event (tick 1), .event (tick 2)] ∧
    Conserved (fun _ => [104, 105]) s := by
  have hdisk : ∀ n, ∃ m, n ≤ m ∧ 0 < stutter m := fun n =>
    ⟨2 * n + 1, by omega, by simp only [stutter]; omega⟩
  refine ⟨4, _, rfl, by decide, ?_⟩
  exact (@conserved_run ℕ (fun _ => [104, 105]) stutter drainTwo (fun _ => tick 0)
    (fun _ => ⟨0, 0⟩) (fun _ => tick 0) hdisk (by decide) (by decide)).2 4 _ rfl

end Esp.Writer
