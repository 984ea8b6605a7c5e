import Mathlib.Algebra.BigOperators.Group.Finset.Basic
import Libesp.Queue.BlockDequeue
import Libesp.Stream.Conservation

/-! @esp stream | name:RawEventWriter::Flush | scheme:termination |
    source:src/EventStreamIO.cpp (Flush, FlushStrings)

    `Flush` round by round, against any disk. Each round asks for all that is left and the disk takes
    some of it, or nothing; the loop goes round again for as long as something is left. So at any
    moment the file has a front part of the buffer, and the loop ends exactly when the disk has taken
    it all: a disk that is full, and stays so, keeps it going for ever (`flushed_iff`).

        writeBuffer   │ in the file │ left ············│ used
                      0 ───────────▶ written            -/

namespace Esp.Writer
open Event LocklessRing Memory

variable {K : Type} (mem : K → List UInt8) (disk : ℕ → ℕ)

/-- The loop of `Flush` between two rounds: the writer and the loop's two variables. -/
structure Flushing (K : Type) where
  writer : RawEventWriter K
  toWrite : ℤ
  written : ℤ

def Flushing.next (s : Flushing K) : Flushing K :=
  let got := s.writer.fwriteEvents disk s.written s.toWrite
  ⟨got.2, s.toWrite - got.1, s.written + got.1⟩

/-- A `Flush` of `w` after so many calls of `fwrite`. -/
def flushing (w : RawEventWriter K) : ℕ → Flushing K
  | 0 => ⟨w, w.writeBufferUsed, 0⟩
  | n + 1 => (flushing w n).next disk

/-- What the disk would take in the next `n` calls, if it were asked for enough. -/
def takes (w : RawEventWriter K) (n : ℕ) : ℕ := ∑ i ∈ Finset.range n, disk (w.fwrites + i)

/-- `Flush` ends with all of the buffer in the file and both loops done; and at any time until then
    the events written are a front part of the buffer, all of it once the disk has taken so many. -/
structure Flushed (w : RawEventWriter K) : Prop where
  ends : ∃ rounds w', (∀ fuel, rounds ≤ fuel → w.flush mem disk fuel = some w') ∧
    eventsOf w'.outputFile =
      eventsOf w.outputFile ++ slice w.writeBuffer 0 w.writeBufferUsed.toNat ∧
    w'.stringQueue.stored stringQueueCapacity = []
  in_order : ∀ n, ∃ k ≤ w.writeBufferUsed.toNat,
    eventsOf (flushing disk w n).writer.outputFile =
      eventsOf w.outputFile ++ slice w.writeBuffer 0 k
  all_taken : ∀ n, w.writeBufferUsed ≤ takes disk w n →
    eventsOf (flushing disk w n).writer.outputFile =
      eventsOf w.outputFile ++ slice w.writeBuffer 0 w.writeBufferUsed.toNat

variable {mem disk} {w w' : RawEventWriter K}

/-! ### Rounds -/

/-- What a `Flush` of `w` has done after `n` rounds. -/
structure Wrote (disk : ℕ → ℕ) (w : RawEventWriter K) (n : ℕ) (s : Flushing K) : Prop where
  fwrites_eq : s.writer.fwrites = w.fwrites + n
  written_eq : s.written = min (takes disk w n : ℤ) w.writeBufferUsed
  toWrite_eq : s.toWrite = w.writeBufferUsed - s.written
  buffer_eq : s.writer.writeBuffer = w.writeBuffer
  strings_eq : s.writer.stringQueue = w.stringQueue
  file_eq : s.writer.outputFile =
    w.outputFile ++ (slice w.writeBuffer 0 s.written.toNat).map .event

theorem takes_succ (w : RawEventWriter K) (n : ℕ) :
    takes disk w (n + 1) = takes disk w n + disk (w.fwrites + n) :=
  Finset.sum_range_succ ..

/-- STEP: a round writes the next part of the buffer. -/
theorem Wrote.next {n : ℕ} {s : Flushing K} (h : Wrote disk w n s) (h0 : 0 ≤ w.writeBufferUsed) :
    Wrote disk w (n + 1) (s.next disk) := by
  have hwritten := h.written_eq
  have hleft := h.toWrite_eq
  obtain ⟨k, hk⟩ : ∃ k : ℕ, min (disk s.writer.fwrites : ℤ) s.toWrite = k :=
    ⟨(min (disk s.writer.fwrites : ℤ) s.toWrite).toNat, by omega⟩
  refine ⟨?_, ?_, ?_, h.buffer_eq, h.strings_eq, ?_⟩
  · simp only [Flushing.next, RawEventWriter.fwriteEvents, h.fwrites_eq]
    omega
  · simp only [Flushing.next, RawEventWriter.fwriteEvents, h.fwrites_eq, takes_succ]
    push_cast
    omega
  · simp only [Flushing.next]
    omega
  · have hsplit : (s.written + k).toNat = s.written.toNat + k := by omega
    simp only [Flushing.next, RawEventWriter.fwriteEvents, hk, Int.toNat_natCast, h.file_eq,
      h.buffer_eq, hsplit, slice_add, List.map_append, List.append_assoc]
    rw [zero_add, Int.toNat_of_nonneg (by omega)]

/-- RUN: what a `Flush` has done after any number of rounds. -/
theorem wrote_flushing (disk : ℕ → ℕ) (h0 : 0 ≤ w.writeBufferUsed) (n : ℕ) :
    Wrote disk w n (flushing disk w n) := by
  induction n with
  | zero =>
    have hnone : (0 : ℤ) = min ((takes disk w 0 : ℕ) : ℤ) w.writeBufferUsed := by
      rw [takes, Finset.range_zero, Finset.sum_empty]
      omega
    exact ⟨rfl, hnone, (sub_zero _).symm, rfl, rfl, (List.append_nil _).symm⟩
  | succ n ih => exact ih.next h0

/-- Nothing is left exactly when the disk has taken enough. -/
theorem Wrote.done_iff {n : ℕ} {s : Flushing K} (h : Wrote disk w n s) :
    s.toWrite ≤ 0 ↔ w.writeBufferUsed ≤ takes disk w n := by
  rw [h.toWrite_eq, h.written_eq]
  omega

/-! ### The loop -/

/-- The loop returns between two rounds, with nothing left. -/
theorem flushLoop_stops {fuel n : ℕ}
    (hr : flushLoop disk fuel (flushing disk w n).writer (flushing disk w n).toWrite
      (flushing disk w n).written = some w') :
    ∃ m, w' = (flushing disk w m).writer ∧ (flushing disk w m).toWrite ≤ 0 := by
  induction fuel generalizing n with
  | zero => cases hr
  | succ fuel ih =>
    rw [flushLoop] at hr
    split at hr
    · exact ih (n := n + 1) hr
    · rename_i hdone
      exact ⟨n + 1, (Option.some.inj hr).symm, not_lt.mp hdone⟩

/-- The loop returns if nothing is left some rounds on. -/
theorem flushLoop_reaches {m n : ℕ} (hmn : n < m) (hdone : (flushing disk w m).toWrite ≤ 0) :
    ∃ fuel w', flushLoop disk fuel (flushing disk w n).writer (flushing disk w n).toWrite
      (flushing disk w n).written = some w' := by
  obtain ⟨wait, rfl⟩ := Nat.exists_eq_add_of_lt hmn
  induction wait generalizing n with
  | zero =>
    have hstop : ¬ (flushing disk w n).toWrite -
        ((flushing disk w n).writer.fwriteEvents disk (flushing disk w n).written
          (flushing disk w n).toWrite).1 > 0 := not_lt.mpr hdone
    exact ⟨1, _, by rw [flushLoop, if_neg hstop]⟩
  | succ wait ih =>
    refine flushLoop_round _ _ _ fun _ => ih (n := n + 1) (by omega) ?_
    rwa [show n + 1 + wait + 1 = n + (wait + 1) + 1 by omega]

/-! ### FlushStrings -/

variable (mem) in
/-- A round of `FlushStrings` on a ring with its cursors in order takes the oldest string. -/
theorem flushString_window (h : Window stringQueueCapacity w.stringQueue)
    (hlt : w.stringQueue.back < w.stringQueue.readfront) :
    ∃ s, w.flushString mem = some (({ w with
      stringQueue := { w.stringQueue with back := w.stringQueue.back + 1 } } :
        RawEventWriter K).writeString mem s) := by
  refine ⟨w.stringQueue.buffer (modcap stringQueueCapacity w.stringQueue.back), ?_⟩
  rw [RawEventWriter.flushString, h.tryDequeue hlt]

/-- `FlushStrings` empties the string ring within its rounds, and writes no event. -/
theorem flushStringsLoop_window (n : ℕ) (h : Window stringQueueCapacity w.stringQueue)
    (hn : (w.stringQueue.stored stringQueueCapacity).length ≤ n) :
    (flushStringsLoop mem n w).stringQueue.stored stringQueueCapacity = [] ∧
      eventsOf (flushStringsLoop mem n w).outputFile = eventsOf w.outputFile := by
  induction n generalizing w with
  | zero => exact ⟨List.eq_nil_of_length_eq_zero (Nat.le_zero.mp hn), rfl⟩
  | succ n ih =>
    rw [flushStringsLoop]
    rcases h.back_le.lt_or_eq with hlt | heq
    · obtain ⟨s, hs⟩ := flushString_window mem h hlt
      have hcons := congrArg List.length (h.stored_cons hlt)
      rw [List.length_cons] at hcons
      obtain ⟨hnil, hevents⟩ := ih (w := ({ w with
        stringQueue := { w.stringQueue with back := w.stringQueue.back + 1 } } :
          RawEventWriter K).writeString mem s) (h.advance zero_le_one (by omega))
        (by simp only [RawEventWriter.writeString]; omega)
      rw [hs]
      refine ⟨hnil, hevents.trans ?_⟩
      simp only [RawEventWriter.writeString, stored, eventsOf_append, eventsOf_string,
        List.append_nil]
    · have hnone : w.flushString mem = none := by
        rw [RawEventWriter.flushString, Window.tryDequeue_empty heq]
      rw [hnone]
      refine ⟨List.eq_nil_of_length_eq_zero ?_, rfl⟩
      rw [length_stored, heq, sub_self]
      rfl

variable (mem) in
theorem flushStrings_window (h : Window stringQueueCapacity w.stringQueue) :
    (w.flushStrings mem).stringQueue.stored stringQueueCapacity = [] ∧
      eventsOf (w.flushStrings mem).outputFile = eventsOf w.outputFile := by
  have hlt := h.readfront_lt
  refine flushStringsLoop_window _ h ?_
  rw [length_stored]
  omega

/-! ### Flush -/

/-- A `Flush` that returns has written the whole buffer and emptied the string ring. -/
theorem flush_some (h0 : 0 ≤ w.writeBufferUsed) (hq : Window stringQueueCapacity w.stringQueue)
    {fuel : ℕ} (hr : w.flush mem disk fuel = some w') :
    (∃ n, w.writeBufferUsed ≤ takes disk w n) ∧
      eventsOf w'.outputFile =
        eventsOf w.outputFile ++ slice w.writeBuffer 0 w.writeBufferUsed.toNat ∧
      w'.stringQueue.stored stringQueueCapacity = [] := by
  obtain ⟨v, hv, rfl⟩ := Option.map_eq_some_iff.mp hr
  obtain ⟨n, rfl, hdone⟩ := flushLoop_stops (n := 0) hv
  have hw := wrote_flushing disk h0 n
  have hall := hw.written_eq
  have hleft := hw.toWrite_eq
  have hring : Window stringQueueCapacity
      ({ (flushing disk w n).writer with writeBufferUsed := 0 } : RawEventWriter K).stringQueue := by
    simp only [hw.strings_eq]
    exact hq
  obtain ⟨hnil, hevents⟩ := flushStrings_window mem hring
  refine ⟨⟨n, hw.done_iff.mp hdone⟩, ?_, hnil⟩
  have hwritten : (flushing disk w n).written = w.writeBufferUsed := by omega
  rw [hevents]
  simp only [hw.file_eq, hwritten, eventsOf_append, eventsOf_map_event]

variable (mem) in
/-- EXACT: `Flush` does its work exactly when the disk, sooner or later, has taken as many events as
    are in the buffer. -/
theorem flushed_iff (disk : ℕ → ℕ) (h0 : 0 ≤ w.writeBufferUsed)
    (hq : Window stringQueueCapacity w.stringQueue) :
    Flushed mem disk w ↔ ∃ n, w.writeBufferUsed ≤ takes disk w n := by
  constructor
  · intro h
    obtain ⟨rounds, w', hr, -, -⟩ := h.ends
    exact (flush_some h0 hq (hr rounds (le_refl _))).1
  · rintro ⟨n, hn⟩
    have hmore : w.writeBufferUsed ≤ takes disk w (n + 1) := by
      rw [takes_succ]
      push_cast
      omega
    refine ⟨?_, ?_, ?_⟩
    · obtain ⟨rounds, v, hv⟩ := flushLoop_reaches (Nat.succ_pos n)
        ((wrote_flushing disk h0 (n + 1)).done_iff.mpr hmore)
      have hr : w.flush mem disk rounds = some _ := Option.map_eq_some_iff.mpr ⟨v, hv, rfl⟩
      obtain ⟨-, hevents, hnil⟩ := flush_some h0 hq hr
      exact ⟨rounds, _, fun fuel hfuel => flush_mono hfuel hr, hevents, hnil⟩
    · intro m
      have hw := wrote_flushing disk h0 m
      have hpart := hw.written_eq
      refine ⟨(flushing disk w m).written.toNat, by omega, ?_⟩
      rw [hw.file_eq, eventsOf_append, eventsOf_map_event]
    · intro m hm
      have hw := wrote_flushing disk h0 m
      have hpart := hw.written_eq
      have hall : (flushing disk w m).written = w.writeBufferUsed := by omega
      rw [hw.file_eq, hall, eventsOf_append, eventsOf_map_event]

/-- A writer with `used` events in its buffer and empty rings. -/
def buffered (used : ℤ) : RawEventWriter Unit :=
  { RawEventWriter.new (RingQueue.new fun _ => ⟨⟨0, 0⟩, ⟨0, 0, 0, 0, 0, 0⟩⟩)
      (RingQueue.new fun _ => ⟨0, ()⟩) (fun _ => ⟨⟨0, 0⟩, ⟨0, 0, 0, 0, 0, 0⟩⟩) with
    writeBufferUsed := used }

theorem window_buffered (used : ℤ) : Window stringQueueCapacity (buffered used).stringQueue where
  back_nonneg := le_refl _
  back_le := le_refl _
  readfront_lt := (by decide : (0 : ℤ) < 0 + stringQueueCapacity)
  no_overflow := (by decide : (0 : ℤ) < 2147483648)

/-- Three events, and a disk that takes one in every other call. -/
theorem flushed_iff_everyOther : Flushed (fun _ => []) (fun n => n % 2) (buffered 3) :=
  (flushed_iff (fun _ => []) (fun n => n % 2) (by decide) (window_buffered 3)).mpr ⟨6, by decide⟩

/-- REFUTED: on a full disk the `Flush` of one event never returns. -/
theorem fullDisk_hangs :
    (∀ fuel, (buffered 1).flush (fun _ => []) (fun _ => 0) fuel = none) ∧
      ¬ Flushed (fun _ => []) (fun _ => 0) (buffered 1) := by
  have hnever : ∀ fuel, (buffered 1).flush (fun _ => []) (fun _ => 0) fuel = none := by
    intro fuel
    rcases hr : (buffered 1).flush (fun _ => []) (fun _ => 0) fuel with _ | w'
    · rfl
    · obtain ⟨⟨n, hn⟩, -, -⟩ := flush_some (by decide) (window_buffered 1) hr
      rw [takes, Finset.sum_const_zero] at hn
      exact absurd hn (by decide)
  refine ⟨hnever, ?_⟩
  intro h
  obtain ⟨rounds, w', hr, -, -⟩ := h.ends
  have hsome := hr rounds (le_refl _)
  rw [hnever rounds] at hsome
  cases hsome

end Esp.Writer
