import Libesp.Schemes.Objects
import Libesp.Queue.LocklessRing

/-! @esp queue | name:LocklessRingQueue | scheme:refinement | source:src/queue/lockless_ring.h

    What the queue is for, one caller at a time: a first-in first-out list that holds one entry fewer
    than the array has slots. Every call answers as that list does, for as long as the `int` cursors
    last, which is 2^31 - 1 accepted entries.

        ring     back ··· front    three cursors, an array used round and round
        list     [q₀, …, qₙ₋₁]     n ≤ capacity - 1 -/

namespace Esp.LocklessRing
open Cursor Objects

/-- A call of the queue by itself. -/
inductive RingCall (α : Type) where
  | tryEnqueue (value : α)
  | tryDequeue
  | empty
  | full
  | getSize

/-- What a call returns. -/
inductive RingAnswer (α : Type) where
  | accepted (b : Bool)
  | out (v : Option α)
  | flag (b : Bool)
  | size (n : ℤ)
  deriving DecidableEq, Repr

variable {α : Type} (cap : ℕ)

def RingQueue.call (r : RingQueue α) : RingCall α → RingAnswer α × RingQueue α
  | .tryEnqueue value => (.accepted (r.tryEnqueue cap value).1, (r.tryEnqueue cap value).2)
  | .tryDequeue => (.out (r.tryDequeue cap).1, (r.tryDequeue cap).2)
  | .empty => (.flag (r.empty cap), r)
  | .full => (.flag (r.full cap), r)
  | .getSize => (.size r.getSize, r)

/-- The list that holds at most `capacity - 1` entries, oldest first. -/
def boundedFifo (q : List α) : RingCall α → RingAnswer α × List α
  | .tryEnqueue value =>
    if q.length < cap - 1 then (.accepted true, q ++ [value]) else (.accepted false, q)
  | .tryDequeue => (.out q.head?, q.tail)
  | .empty => (.flag q.isEmpty, q)
  | .full => (.flag (q.length == cap - 1), q)
  | .getSize => (.size q.length, q)

/-- An accepted entry is what the cursors are used up by. -/
def RingAnswer.uses : RingAnswer α → ℕ
  | .accepted true => 1
  | _ => 0

/-- How many of the calls were enqueues that the queue accepted. -/
def accepts (junk : ℤ → α) (cs : List (RingCall α)) : ℕ :=
  ((answers (RingQueue.call cap) (RingQueue.new junk) cs).map RingAnswer.uses).sum

/-- REFINEMENT: the queue stores the list, and `n` entries have been accepted. -/
def StoresAfter (n : ℕ) (r : RingQueue α) (q : List α) : Prop := Holds cap r q ∧ r.front = n

variable {cap} {n : ℕ} {r : RingQueue α} {q : List α}

/-- STEP: `TryEnqueue`. -/
theorem StoresAfter.tryEnqueue (h : StoresAfter cap n r q) (v : α)
    (hN : n + (r.call cap (.tryEnqueue v)).1.uses < 2147483647) :
    (r.call cap (.tryEnqueue v)).1 = (boundedFifo cap q (.tryEnqueue v)).1 ∧
      StoresAfter cap (n + (r.call cap (.tryEnqueue v)).1.uses) (r.call cap (.tryEnqueue v)).2
        (boundedFifo cap q (.tryEnqueue v)).2 := by
  obtain ⟨hq, hn⟩ := h
  have hf : r.front < 2147483647 := by omega
  have hroom := tryEnqueue_accepts hq hf v
  have hlen := hq.room
  rw [boundedFifo]
  rcases hacc : (r.tryEnqueue cap v).1 with _ | _
  · have hfull : ¬ q.length < cap - 1 := by
      rw [hacc] at hroom
      simp only [Bool.false_eq_true, false_iff] at hroom
      omega
    rw [if_neg hfull]
    refine ⟨by rw [RingQueue.call, hacc], ?_⟩
    simp only [RingQueue.call, hacc, tryEnqueue_refused hacc]
    exact ⟨hq, hn⟩
  · have hspace : q.length < cap - 1 := by
      have := hroom.mp hacc
      omega
    obtain ⟨hq', hfront⟩ := holds_enqueue hq hf hacc
    rw [if_pos hspace]
    refine ⟨by rw [RingQueue.call, hacc], ?_⟩
    simp only [RingQueue.call, hacc, RingAnswer.uses]
    exact ⟨hq', by rw [hfront, hn]; rfl⟩

/-- STEP: `TryDequeue`. -/
theorem StoresAfter.tryDequeue (h : StoresAfter cap n r q) (hN : n < 2147483647) :
    (r.call cap .tryDequeue).1 = (boundedFifo cap q .tryDequeue).1 ∧
      StoresAfter cap n (r.call cap .tryDequeue).2 (boundedFifo cap q .tryDequeue).2 := by
  obtain ⟨hq, hn⟩ := h
  rw [RingQueue.call, boundedFifo]
  cases q with
  | nil =>
    rw [tryDequeue_nil hq]
    exact ⟨rfl, hq, hn⟩
  | cons x q =>
    obtain ⟨r', he, hq', hfront⟩ := tryDequeue_cons hq (by omega)
    rw [he]
    exact ⟨rfl, hq', by rw [hfront, hn]⟩

/-- The tests and the size are those of the list. -/
theorem StoresAfter.tests (h : StoresAfter cap n r q) (hN : n < 2147483647) :
    r.empty cap = q.isEmpty ∧ r.full cap = (q.length == cap - 1) ∧ r.getSize = q.length := by
  obtain ⟨hq, hn⟩ := h
  have hroom := hq.room
  have hback := hq.back_nonneg
  have hfront := hq.front_eq
  refine ⟨?_, ?_, ?_⟩
  · rw [Bool.eq_iff_iff, RingQueue.empty, empty_iff hq, List.isEmpty_iff]
  · rw [Bool.eq_iff_iff, RingQueue.full, full_iff hq (by omega), beq_iff_eq]
    omega
  · rw [RingQueue.getSize, wrap32_of_range (by omega) (by omega)]
    omega

/-- STEP: every call answers as the list does. -/
theorem StoresAfter.call (h : StoresAfter cap n r q) (c : RingCall α)
    (hN : n + (r.call cap c).1.uses < 2147483647) :
    (r.call cap c).1 = (boundedFifo cap q c).1 ∧
      StoresAfter cap (n + (r.call cap c).1.uses) (r.call cap c).2 (boundedFifo cap q c).2 := by
  have hn : n < 2147483647 := by omega
  obtain ⟨hempty, hfull, hsize⟩ := h.tests hn
  cases c with
  | tryEnqueue v => exact h.tryEnqueue v hN
  | tryDequeue => exact h.tryDequeue hn
  | empty => exact ⟨congrArg RingAnswer.flag hempty, h⟩
  | full => exact ⟨congrArg RingAnswer.flag hfull, h⟩
  | getSize => exact ⟨congrArg RingAnswer.size hsize, h⟩

/-- REFINEMENT: on every sequence of calls the queue answers as the bounded list does and stores that
    list; a refused enqueue changes nothing. -/
theorem boundedFifo_refined (hcap : 1 ≤ cap) (junk : ℤ → α) (cs : List (RingCall α))
    (hN : accepts cap junk cs < 2147483647) :
    answers (RingQueue.call cap) (RingQueue.new junk) cs = answers (boundedFifo cap) [] cs ∧
    (final (RingQueue.call cap) (RingQueue.new junk) cs).contents cap =
      final (boundedFifo cap) [] cs ∧
    ∀ v, ((final (RingQueue.call cap) (RingQueue.new junk) cs).tryEnqueue cap v).1 = false →
      ((final (RingQueue.call cap) (RingQueue.new junk) cs).tryEnqueue cap v).2 =
        final (RingQueue.call cap) (RingQueue.new junk) cs := by
  have hnew : StoresAfter cap 0 (RingQueue.new junk) ([] : List α) := ⟨holds_new hcap junk, rfl⟩
  obtain ⟨hans, hstores, -⟩ := refines_within (R := StoresAfter cap)
    (fun _ _ _ c h hN => StoresAfter.call h c hN) cs hnew (by rwa [zero_add])
  exact ⟨hans, hstores.contents_eq, fun _ hr => tryEnqueue_refused hr⟩

/-- Three slots hold two entries; the third waits for a dequeue and comes to slot 0 again. -/
def threeSlots : List (RingCall ℕ) :=
  [.empty, .tryEnqueue 5, .tryEnqueue 6, .full, .tryEnqueue 7, .tryDequeue, .tryEnqueue 8, .tryDequeue,
    .getSize, .tryEnqueue 9, .tryDequeue, .tryDequeue, .tryDequeue]

theorem boundedFifo_refined_threeSlots :
    answers (RingQueue.call 3) (RingQueue.new fun _ => 0) threeSlots =
      answers (boundedFifo 3) [] threeSlots :=
  (boundedFifo_refined (by decide) (fun _ => 0) threeSlots (by decide)).1

end Esp.LocklessRing
