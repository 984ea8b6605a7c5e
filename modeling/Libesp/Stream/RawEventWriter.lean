import Libesp.Event
import Libesp.Queue.LocklessRing

/-! @esp stream | name:RawEventWriter | scheme:pipeline | source:src/EventStreamIO.cpp

    The consumer of the two rings, with its write buffer and its file. `Conserves` is what all its
    parts keep: what has left a ring is in the file, or in the part of the buffer still to be
    written, and in the order it was enqueued.

        event ring ──TryDequeue──▶ writeBuffer[0, used) ──fwrite──▶ file
        string ring ────────────TryDequeue, WriteString───────────▶ file

    Each call of `fwrite` on the buffer writes as many whole events as the disk takes, a count that
    `disk` gives for each call. `Flush` loops until all are written, so it is a partial function; the
    bound on its rounds is an argument. -/

namespace Esp.Writer
open Event LocklessRing Memory

structure RawEventWriter (K : Type) where
  contextQueue : RingQueue ProfileEvent
  stringQueue : RingQueue (RuntimeStringReference K)
  writeBuffer : ℤ → ProfileEvent
  writeBufferUsed : ℤ
  outputFile : List Record
  /-- The number of `fwrite` calls on the buffer so far. -/
  fwrites : ℕ
  stillBusy : Bool

variable {K : Type} (mem : K → List UInt8) (disk : ℕ → ℕ)

def RawEventWriter.new (queue : RingQueue ProfileEvent)
    (strings : RingQueue (RuntimeStringReference K)) (junk : ℤ → ProfileEvent) : RawEventWriter K :=
  ⟨queue, strings, junk, 0, [], 0, false⟩

/-- The record `WriteString` makes of a reference; its length is a 32-bit field. -/
def stored (s : RuntimeStringReference K) : Record :=
  .string s.id ((mem s.ptr).take ((mem s.ptr).length % 2 ^ 32))

def RawEventWriter.writeString (w : RawEventWriter K) (s : RuntimeStringReference K) :
    RawEventWriter K :=
  { w with outputFile := w.outputFile ++ [stored mem s] }

/-- One round of `FlushStrings`, or `none` when the string ring is empty. -/
def RawEventWriter.flushString (w : RawEventWriter K) : Option (RawEventWriter K) :=
  match w.stringQueue.tryDequeue stringQueueCapacity with
  | (none, _) => none
  | (some s, q) => some (({ w with stringQueue := q } : RawEventWriter K).writeString mem s)

/-- The loop of `FlushStrings`; the first argument bounds the rounds. -/
def flushStringsLoop : ℕ → RawEventWriter K → RawEventWriter K
  | 0, w => w
  | n + 1, w =>
    match w.flushString mem with
    | none => w
    | some w' => flushStringsLoop n w'

def RawEventWriter.flushStrings (w : RawEventWriter K) : RawEventWriter K :=
  flushStringsLoop mem stringQueueCapacity w

/-- `fwrite(writeBuffer + written, sizeof (ProfileEvent), toWrite, outputFile)`. -/
def RawEventWriter.fwriteEvents (w : RawEventWriter K) (written toWrite : ℤ) :
    ℤ × RawEventWriter K :=
  let thisWrite : ℤ := min (disk w.fwrites : ℤ) toWrite
  (thisWrite, { w with
    outputFile := w.outputFile ++ (slice w.writeBuffer written thisWrite.toNat).map .event
    fwrites := w.fwrites + 1 })

/-- The loop of `Flush`; `none` when it is still running after the rounds of the first argument. -/
def flushLoop : ℕ → RawEventWriter K → ℤ → ℤ → Option (RawEventWriter K)
  | 0, _, _, _ => none
  | n + 1, w, toWrite, written =>
    let got := w.fwriteEvents disk written toWrite
    if toWrite - got.1 > 0 then flushLoop n got.2 (toWrite - got.1) (written + got.1)
    else some got.2

def RawEventWriter.flush (fuel : ℕ) (w : RawEventWriter K) : Option (RawEventWriter K) :=
  (flushLoop disk fuel w w.writeBufferUsed 0).map fun w' =>
    ({ w' with writeBufferUsed := 0 } : RawEventWriter K).flushStrings mem

/-- The first statement of `Drain`: a bulk dequeue into the free part of the buffer. -/
def RawEventWriter.dequeueEvents (w : RawEventWriter K) : RawEventWriter K :=
  let got := w.contextQueue.tryDequeueBulk espMaxEventBuffer
    (espWriteBufferSize - w.writeBufferUsed).toNat
  { w with
    contextQueue := got.2
    writeBuffer := blit w.writeBuffer w.writeBufferUsed got.1
    writeBufferUsed := w.writeBufferUsed + got.1.length }

/-- The threshold test of `Drain`. -/
def RawEventWriter.overThreshold (w : RawEventWriter K) : Bool :=
  w.writeBufferUsed ≥ espWriteBufferThresholdPrecompute

def RawEventWriter.drain (fuel : ℕ) (w : RawEventWriter K) : Option (RawEventWriter K) :=
  let w₁ := w.dequeueEvents
  (if w₁.overThreshold then w₁.flush mem disk fuel else some w₁).map fun w₂ =>
    let w₃ := w₂.flushStrings mem
    { w₃ with stillBusy := !(w₃.contextQueue.empty espMaxEventBuffer &&
      w₃.stringQueue.empty stringQueueCapacity) }

/-- INVARIANT: the accepted events and strings, in order, are those in the file, then those of
    `writeBuffer[written, written + toWrite)`, then those in the rings. -/
structure Conserves (w : RawEventWriter K) (written toWrite : ℤ) (events : List ProfileEvent)
    (strings : List (RuntimeStringReference K)) : Prop where
  eventRing : Holds espMaxEventBuffer w.contextQueue (w.contextQueue.contents espMaxEventBuffer)
  eventCount : w.contextQueue.front = events.length
  events_eq : eventsOf w.outputFile ++ slice w.writeBuffer written toWrite.toNat ++
    w.contextQueue.contents espMaxEventBuffer = events
  stringRing : Holds stringQueueCapacity w.stringQueue (w.stringQueue.contents stringQueueCapacity)
  stringCount : w.stringQueue.front = strings.length
  strings_eq : stringsOf w.outputFile ++
    (w.stringQueue.contents stringQueueCapacity).map (stored mem) = strings.map (stored mem)

variable {mem disk} {w w' : RawEventWriter K} {written toWrite : ℤ} {events : List ProfileEvent}
  {strings : List (RuntimeStringReference K)}

theorem conserves_new (junk junk' junk'') :
    Conserves mem (RawEventWriter.new (RingQueue.new junk) (RingQueue.new junk') junk'' :
      RawEventWriter K) 0 0 [] [] where
  eventRing := holds_new (by decide) junk
  eventCount := rfl
  events_eq := rfl
  stringRing := holds_new (by decide) junk'
  stringCount := rfl
  strings_eq := rfl

/-! ### Enqueues -/

theorem Conserves.enqueueEvent (h : Conserves mem w written toWrite events strings)
    (hN : events.length < 2147483647) {e : ProfileEvent}
    (ha : (w.contextQueue.tryEnqueue espMaxEventBuffer e).1 = true) :
    Conserves mem { w with contextQueue := (w.contextQueue.tryEnqueue espMaxEventBuffer e).2 }
      written toWrite (events ++ [e]) strings := by
  have hfront := h.eventCount
  obtain ⟨hholds, hf⟩ := holds_enqueue h.eventRing (by omega) ha
  refine { h with eventRing := by rwa [hholds.contents_eq], eventCount := ?_, events_eq := ?_ }
  · simp only [hf, List.length_append, List.length_singleton, Nat.cast_add, Nat.cast_one, hfront]
  · simp only [hholds.contents_eq]
    rw [← List.append_assoc, h.events_eq]

theorem Conserves.enqueueString (h : Conserves mem w written toWrite events strings)
    (hN : strings.length < 2147483647) {s : RuntimeStringReference K}
    (ha : (w.stringQueue.tryEnqueue stringQueueCapacity s).1 = true) :
    Conserves mem { w with stringQueue := (w.stringQueue.tryEnqueue stringQueueCapacity s).2 }
      written toWrite events (strings ++ [s]) := by
  have hfront := h.stringCount
  obtain ⟨hholds, hf⟩ := holds_enqueue h.stringRing (by omega) ha
  refine { h with stringRing := by rwa [hholds.contents_eq], stringCount := ?_, strings_eq := ?_ }
  · simp only [hf, List.length_append, List.length_singleton, Nat.cast_add, Nat.cast_one, hfront]
  · simp only [hholds.contents_eq, List.map_append]
    rw [← List.append_assoc, h.strings_eq]

/-! ### The event buffer -/

/-- The bulk dequeue adds a block behind the buffered events and stays inside the buffer. -/
theorem Conserves.dequeueEvents (h : Conserves mem w 0 w.writeBufferUsed events strings)
    (hN : events.length < 2147483647) (h0 : 0 ≤ w.writeBufferUsed)
    (hroom : w.writeBufferUsed ≤ espWriteBufferSize) :
    Conserves mem w.dequeueEvents 0 w.dequeueEvents.writeBufferUsed events strings ∧
      w.writeBufferUsed ≤ w.dequeueEvents.writeBufferUsed ∧
      w.dequeueEvents.writeBufferUsed ≤ espWriteBufferSize := by
  have hfront := h.eventCount
  obtain ⟨k, r, he, hr, hf, hk⟩ := tryDequeueBulk_spec h.eventRing (by omega)
    (espWriteBufferSize - w.writeBufferUsed).toNat
  have hlen : (((w.contextQueue.contents espMaxEventBuffer).take k).length : ℤ) = k := by
    rw [List.length_take]; omega
  obtain ⟨u, hu⟩ : ∃ u : ℕ, w.writeBufferUsed = u := ⟨_, (Int.toNat_of_nonneg h0).symm⟩
  have hused : w.dequeueEvents.writeBufferUsed = w.writeBufferUsed + k := by
    simp only [RawEventWriter.dequeueEvents, he, hlen]
  refine ⟨⟨?_, ?_, ?_, h.stringRing, h.stringCount, h.strings_eq⟩, by omega, by omega⟩
  · simp only [RawEventWriter.dequeueEvents, he]
    rwa [hr.contents_eq]
  · simp only [RawEventWriter.dequeueEvents, he, hf, hfront]
  · rw [hused]
    simp only [RawEventWriter.dequeueEvents, he, hr.contents_eq]
    have hnat : (w.writeBufferUsed + k).toNat = u + k := by omega
    have hk' : ((w.contextQueue.contents espMaxEventBuffer).take k).length = k := by omega
    have hbuf := h.events_eq
    rw [hu, Int.toNat_natCast] at hbuf
    rw [hnat, slice_add, slice_blit_below _ _ _ _ _ (by omega), hu, zero_add]
    rw [slice_blit_self _ _ _ hk', List.append_assoc, List.append_assoc, List.take_append_drop,
      ← List.append_assoc]
    exact hbuf

variable (disk) in
/-- One `fwrite` moves the front of what is to be written into the file. -/
theorem Conserves.fwriteEvents (h : Conserves mem w written toWrite events strings)
    (h0 : 0 ≤ toWrite) :
    Conserves mem (w.fwriteEvents disk written toWrite).2
      (written + (w.fwriteEvents disk written toWrite).1)
      (toWrite - (w.fwriteEvents disk written toWrite).1) events strings := by
  obtain ⟨k, hk⟩ : ∃ k : ℕ, min (disk w.fwrites : ℤ) toWrite = k :=
    ⟨(min (disk w.fwrites : ℤ) toWrite).toNat, by omega⟩
  have hsplit : toWrite.toNat = k + (toWrite - k).toNat := by omega
  have heq := h.events_eq
  rw [hsplit, slice_add] at heq
  refine { h with events_eq := ?_, strings_eq := ?_ }
  · simp only [RawEventWriter.fwriteEvents, hk, Int.toNat_natCast, eventsOf_append,
      eventsOf_map_event]
    rw [← heq]
    simp only [List.append_assoc]
  · simp only [RawEventWriter.fwriteEvents, stringsOf_append, stringsOf_map_event, List.append_nil]
    exact h.strings_eq

/-! ### Strings -/

/-- A round of `FlushStrings` moves the oldest string into the file, and touches nothing else. -/
theorem Conserves.flushString (h : Conserves mem w written toWrite events strings)
    (hN : strings.length < 2147483647) (hs : w.flushString mem = some w') :
    Conserves mem w' written toWrite events strings ∧
      w'.writeBufferUsed = w.writeBufferUsed ∧ w'.contextQueue = w.contextQueue ∧
      (w.stringQueue.contents stringQueueCapacity).length =
        (w'.stringQueue.contents stringQueueCapacity).length + 1 := by
  have hfront := h.stringCount
  have hring := h.stringRing
  have heq := h.strings_eq
  rcases hq : w.stringQueue.contents stringQueueCapacity with _ | ⟨s, q⟩
  · rw [hq] at hring
    simp only [RawEventWriter.flushString, tryDequeue_nil hring] at hs
    cases hs
  · rw [hq] at hring heq
    obtain ⟨r, he, hr, hf⟩ := tryDequeue_cons hring (by omega)
    simp only [RawEventWriter.flushString, he, Option.some.injEq] at hs
    subst hs
    refine ⟨{ h with events_eq := ?_, stringRing := ?_, stringCount := ?_, strings_eq := ?_ },
      rfl, rfl, ?_⟩
    · simp only [RawEventWriter.writeString, eventsOf_append, stored, eventsOf_string,
        List.append_nil]
      exact h.events_eq
    · simp only [RawEventWriter.writeString]
      rwa [hr.contents_eq]
    · simp only [RawEventWriter.writeString, hf, hfront]
    · simp only [RawEventWriter.writeString, stringsOf_append, hr.contents_eq, stored,
        stringsOf_string, List.append_assoc]
      exact heq
    · simp only [RawEventWriter.writeString, hr.contents_eq, List.length_cons]

/-- `FlushStrings` stops on an empty string ring only. -/
theorem Conserves.flushString_none (h : Conserves mem w written toWrite events strings)
    (hN : strings.length < 2147483647) (hs : w.flushString mem = none) :
    w.stringQueue.contents stringQueueCapacity = [] := by
  have hfront := h.stringCount
  have hring := h.stringRing
  rcases hq : w.stringQueue.contents stringQueueCapacity with _ | ⟨s, q⟩
  · rfl
  · rw [hq] at hring
    obtain ⟨r, he, -, -⟩ := tryDequeue_cons hring (by omega)
    simp only [RawEventWriter.flushString, he] at hs
    cases hs

end Esp.Writer
