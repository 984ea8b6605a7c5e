import Libesp.Schemes.Machine
import Libesp.Queue.LocklessRing

/-! @esp queue | name:LocklessRingQueue | scheme:machine | source:src/queue/lockless_ring.h

    The same queue used by any number of producer threads and one consumer thread, one atomic
    operation at a time. A thread's place in the source is its program counter together with the
    locals it holds there; an action names the thread that takes its next step, so a run is a
    schedule. History fields, which no step reads back, record what the queue was given and what it
    handed out.

        producer   idle ─▶ enter ─▶ loaded ─▶ passed ─▶ claimed ─▶ filled ─▶ idle
                             load front  load back  CAS    slot write  fetch_add
                                        └▶ idle (full)  └▶ loaded (lost the CAS)
        consumer   idle ─▶ enter ─▶ loaded ─▶ passed ─▶ copied ─▶ idle
                             load readfront  load back  slot copy  advance back -/

namespace Esp.RingThreads
open Cursor Memory LocklessRing Machine

/-- Where a producer is in `TryEnqueue`, with the value it passes and its copy of `front`. -/
inductive Producer (α : Type) where
  | idle
  | enter (v : α)
  | loaded (v : α) (f : ℤ)
  | passed (v : α) (f : ℤ)
  | claimed (v : α) (f : ℤ)
  | filled (f : ℤ)

/-- Where the consumer is in either form of `TryDequeue`. -/
inductive Consumer (α : Type) where
  | idle
  | enter
  | loaded (f : ℤ)
  | passed (b : ℤ)
  | copied (b : ℤ) (v : α)
  | enterBulk (maxOut : ℕ)
  | loadedBulk (f : ℤ) (maxOut : ℕ)
  | passedBulk (b k : ℤ)
  | copiedBulk (k : ℤ) (vs : List α)

/-- The ticket a producer holds between its successful CAS and its `fetch_add`. -/
def Producer.ticket {α : Type} : Producer α → Option ℤ
  | .claimed _ f => some f
  | .filled f => some f
  | _ => none

structure State (P α : Type) where
  ring : RingQueue α
  producer : P → Producer α
  consumer : Consumer α
  /-- History: the value passed by the claimant of each ticket, in ticket order. -/
  claims : List α
  /-- History: the tickets whose claimant has written its slot. -/
  written : List ℤ
  /-- History: the tickets whose claimant has done its `fetch_add`. -/
  published : List ℤ
  /-- History: the tickets the consumer copied, each with whether it was written by then. -/
  copies : List (ℤ × Bool)
  /-- History: the values handed out by the calls that have returned. -/
  out : List α
  /-- History: has the ring been full at some moment of the producer's current call? -/
  sawFull : P → Bool
  /-- History: the calls that returned `false`, each with `sawFull` at that time. -/
  refusals : List (P × Bool)

inductive Action (P α : Type) where
  | enqueue (p : P) (v : α)
  | produce (p : P)
  | casFails (p : P)
  | dequeue
  | dequeueBulk (maxOut : ℕ)
  | consume

variable {P α : Type}

/-- Every thread idle, the queue new. -/
def State.new (junk : ℤ → α) : State P α where
  ring := RingQueue.new junk
  producer := fun _ => .idle
  consumer := .idle
  claims := []
  written := []
  published := []
  copies := []
  out := []
  sawFull := fun _ => false
  refusals := []

variable [DecidableEq P] (cap : ℕ)

def State.goto (s : State P α) (p : P) (pc : Producer α) : State P α :=
  { s with producer := Function.update s.producer p pc }

/-- `capacity - 1` entries are claimed and not yet dequeued. -/
def IsFull (r : RingQueue α) : Prop := r.front - r.back = cap - 1

instance (r : RingQueue α) : Decidable (IsFull cap r) := inferInstanceAs (Decidable (_ = _))

def State.noteFull (s : State P α) : State P α :=
  { s with sawFull := fun p => s.sawFull p || decide (IsFull cap s.ring) }

/-- The next atomic step of producer `p` in `TryEnqueue`. -/
def produce (s : State P α) (p : P) : Option (State P α) :=
  match s.producer p with
  | .idle => none
  | .enter v => some (s.goto p (.loaded v s.ring.front))
  | .loaded v f =>
    if modcapEq cap (wrap32 (f + 1)) s.ring.back then
      some { s.goto p .idle with refusals := s.refusals ++ [(p, s.sawFull p)] }
    else some (s.goto p (.passed v f))
  | .passed v f =>
    if s.ring.front = f then
      some { s.goto p (.claimed v f) with
        ring := { s.ring with front := wrap32 (f + 1) }
        claims := s.claims ++ [v] }
    else some (s.goto p (.loaded v s.ring.front))
  | .claimed v f =>
    some { s.goto p (.filled f) with
      ring := { s.ring with buffer := Function.update s.ring.buffer (modcap cap f) v }
      written := s.written ++ [f] }
  | .filled f =>
    some { s.goto p .idle with
      ring := { s.ring with readfront := wrap32 (s.ring.readfront + 1) }
      published := s.published ++ [f] }

/-- The next atomic step of the consumer in the form of `TryDequeue` it is running. -/
def consume (s : State P α) : Option (State P α) :=
  match s.consumer with
  | .idle => none
  | .enter => some { s with consumer := .loaded s.ring.readfront }
  | .loaded f =>
    if modcapEq cap f s.ring.back then some { s with consumer := .idle }
    else some { s with consumer := .passed s.ring.back }
  | .passed b =>
    some { s with
      consumer := .copied b (s.ring.buffer (modcap cap b))
      copies := s.copies ++ [(b, decide (b ∈ s.written))] }
  | .copied b v =>
    some { s with
      consumer := .idle
      ring := { s.ring with back := wrap32 (b + 1) }
      out := s.out ++ [v] }
  | .enterBulk maxOut =>
    some { s with consumer := .loadedBulk (modcap cap s.ring.readfront) maxOut }
  | .loadedBulk f maxOut =>
    let b := modcap cap s.ring.back
    if f = b then some { s with consumer := .idle }
    else some { s with consumer := .passedBulk b (blockCopySize cap f b maxOut) }
  | .passedBulk b k =>
    some { s with
      consumer := .copiedBulk k (slice s.ring.buffer b k.toNat)
      copies := s.copies ++ (slice id s.ring.back k.toNat).map fun f => (f, decide (f ∈ s.written)) }
  | .copiedBulk k vs =>
    some { s with
      consumer := .idle
      ring := { s.ring with back := wrap32 (s.ring.back + k) }
      out := s.out ++ vs }

/-- What an action does, before the ring is looked at for fullness. -/
def act (s : State P α) : Action P α → Option (State P α)
  | .enqueue p v =>
    match s.producer p with
    | .idle => some { s.goto p (.enter v) with sawFull := Function.update s.sawFull p false }
    | _ => none
  | .produce p => produce cap s p
  | .casFails p =>  -- `compare_exchange_weak` may fail although `front` is still `f`
    match s.producer p with
    | .passed v _ => some (s.goto p (.loaded v s.ring.front))
    | _ => none
  | .dequeue =>
    match s.consumer with
    | .idle => some { s with consumer := .enter }
    | _ => none
  | .dequeueBulk maxOut =>
    match s.consumer with
    | .idle => some { s with consumer := .enterBulk maxOut }
    | _ => none
  | .consume => consume cap s

def step (s : State P α) (a : Action P α) : Option (State P α) :=
  (act cap s a).map (State.noteFull cap)

/-- The transitions of `act`, one constructor for each place in the source. -/
inductive Moves (s : State P α) : Action P α → State P α → Prop
  | call {p v} (h : s.producer p = .idle) :
    Moves s (.enqueue p v)
      { s.goto p (.enter v) with sawFull := Function.update s.sawFull p false }
  | loadFront {p v} (h : s.producer p = .enter v) :
    Moves s (.produce p) (s.goto p (.loaded v s.ring.front))
  | refuse {p v f} (h : s.producer p = .loaded v f)
      (hfull : modcapEq cap (wrap32 (f + 1)) s.ring.back = true) :
    Moves s (.produce p) { s.goto p .idle with refusals := s.refusals ++ [(p, s.sawFull p)] }
  | pass {p v f} (h : s.producer p = .loaded v f)
      (hroom : ¬ modcapEq cap (wrap32 (f + 1)) s.ring.back = true) :
    Moves s (.produce p) (s.goto p (.passed v f))
  | claim {p v} (h : s.producer p = .passed v s.ring.front) :
    Moves s (.produce p) { s.goto p (.claimed v s.ring.front) with
      ring := { s.ring with front := wrap32 (s.ring.front + 1) }
      claims := s.claims ++ [v] }
  | retry {a p v f} (h : s.producer p = .passed v f) :
    Moves s a (s.goto p (.loaded v s.ring.front))
  | fill {p v f} (h : s.producer p = .claimed v f) :
    Moves s (.produce p) { s.goto p (.filled f) with
      ring := { s.ring with buffer := Function.update s.ring.buffer (modcap cap f) v }
      written := s.written ++ [f] }
  | publish {p f} (h : s.producer p = .filled f) :
    Moves s (.produce p) { s.goto p .idle with
      ring := { s.ring with readfront := wrap32 (s.ring.readfront + 1) }
      published := s.published ++ [f] }
  | wait {a c} (h : c = .idle ∨ c = .enter ∨ ∃ maxOut, c = .enterBulk maxOut) :
    Moves s a { s with consumer := c }
  | loadReadfront (h : s.consumer = .enter) :
    Moves s .consume { s with consumer := .loaded s.ring.readfront }
  | accept {f} (h : s.consumer = .loaded f) (hne : ¬ modcapEq cap f s.ring.back = true) :
    Moves s .consume { s with consumer := .passed s.ring.back }
  | copy {b} (h : s.consumer = .passed b) :
    Moves s .consume { s with
      consumer := .copied b (s.ring.buffer (modcap cap b))
      copies := s.copies ++ [(b, decide (b ∈ s.written))] }
  | advance {b v} (h : s.consumer = .copied b v) :
    Moves s .consume { s with
      consumer := .idle
      ring := { s.ring with back := wrap32 (b + 1) }
      out := s.out ++ [v] }
  | loadReadfrontBulk {maxOut} (h : s.consumer = .enterBulk maxOut) :
    Moves s .consume { s with consumer := .loadedBulk (modcap cap s.ring.readfront) maxOut }
  | acceptBulk {f maxOut} (h : s.consumer = .loadedBulk f maxOut)
      (hne : f ≠ modcap cap s.ring.back) :
    Moves s .consume { s with
      consumer := .passedBulk (modcap cap s.ring.back)
        (blockCopySize cap f (modcap cap s.ring.back) maxOut) }
  | copyBulk {b k} (h : s.consumer = .passedBulk b k) :
    Moves s .consume { s with
      consumer := .copiedBulk k (slice s.ring.buffer b k.toNat)
      copies := s.copies ++ (slice id s.ring.back k.toNat).map fun f => (f, decide (f ∈ s.written)) }
  | advanceBulk {k vs} (h : s.consumer = .copiedBulk k vs) :
    Moves s .consume { s with
      consumer := .idle
      ring := { s.ring with back := wrap32 (s.ring.back + k) }
      out := s.out ++ vs }

variable {cap} {s t : State P α} {a : Action P α}

theorem moves_of_produce {p : P} (h : produce cap s p = some t) : Moves cap s (.produce p) t := by
  unfold produce at h
  cases hp : s.producer p with
  | idle => rw [hp] at h; cases h
  | enter v => rw [hp] at h; cases h; exact .loadFront hp
  | loaded v f =>
    rw [hp] at h
    simp only at h
    split at h
    · rename_i hc; cases h; exact .refuse hp hc
    · rename_i hc; cases h; exact .pass hp hc
  | passed v f =>
    rw [hp] at h
    simp only at h
    split at h
    · rename_i hc; cases h; subst hc; exact .claim hp
    · cases h; exact .retry hp
  | claimed v f => rw [hp] at h; cases h; exact .fill hp
  | filled f => rw [hp] at h; cases h; exact .publish hp

theorem moves_of_consume (h : consume cap s = some t) : Moves cap s .consume t := by
  unfold consume at h
  cases hc : s.consumer with
  | idle => rw [hc] at h; cases h
  | enter => rw [hc] at h; cases h; exact .loadReadfront hc
  | loaded f =>
    rw [hc] at h
    simp only at h
    split at h
    · cases h; exact .wait (Or.inl rfl)
    · rename_i hne; cases h; exact .accept hc hne
  | passed b => rw [hc] at h; cases h; exact .copy hc
  | copied b v => rw [hc] at h; cases h; exact .advance hc
  | enterBulk maxOut => rw [hc] at h; cases h; exact .loadReadfrontBulk hc
  | loadedBulk f maxOut =>
    rw [hc] at h
    simp only at h
    split at h
    · cases h; exact .wait (Or.inl rfl)
    · rename_i hne; cases h; exact .acceptBulk hc hne
  | passedBulk b k => rw [hc] at h; cases h; exact .copyBulk hc
  | copiedBulk k vs => rw [hc] at h; cases h; exact .advanceBulk hc

/-- INVERSION: a step is one of the transitions, followed by the look at the ring. -/
theorem step_moves (h : step cap s a = some t) : ∃ u, Moves cap s a u ∧ t = u.noteFull cap := by
  obtain ⟨u, hu, rfl⟩ := Option.map_eq_some_iff.mp h
  refine ⟨u, ?_, rfl⟩
  cases a with
  | enqueue p v =>
    simp only [act] at hu
    split at hu
    · rename_i hp; cases hu; exact .call hp
    · cases hu
  | produce p => exact moves_of_produce hu
  | casFails p =>
    simp only [act] at hu
    split at hu
    · rename_i v f hp; cases hu; exact .retry hp
    · cases hu
  | dequeue =>
    simp only [act] at hu
    split at hu
    · cases hu; exact .wait (Or.inr (Or.inl rfl))
    · cases hu
  | dequeueBulk maxOut =>
    simp only [act] at hu
    split at hu
    · cases hu; exact .wait (Or.inr (Or.inr ⟨maxOut, rfl⟩))
    · cases hu
  | consume => exact moves_of_consume hu

/-! ### A call run alone -/

/-- REFINEMENT: `TryEnqueue` whose steps nothing comes between is `tryEnqueue`. -/
theorem enqueue_alone {p : P} (hp : s.producer p = .idle) (v : α) :
    ∃ n, (run (step cap) s (.enqueue p v :: List.replicate n (.produce p))).map
      (fun t => (t.ring, t.producer)) = some ((s.ring.tryEnqueue cap v).2, s.producer) := by
  have hback : Function.update s.producer p .idle = s.producer := by
    rw [← hp, Function.update_eq_self]
  rcases eq_or_ne (modcap cap (wrap32 (s.ring.front + 1))) (modcap cap s.ring.back) with h | h
  · refine ⟨2, ?_⟩
    simp [List.replicate, step, act, produce, State.goto, State.noteFull, RingQueue.tryEnqueue, hp,
      h, hback]
  · refine ⟨5, ?_⟩
    simp [List.replicate, step, act, produce, State.goto, State.noteFull, RingQueue.tryEnqueue, hp,
      h, hback]

/-- REFINEMENT: `TryDequeue` run alone is `tryDequeue`. -/
theorem dequeue_alone (hc : s.consumer = .idle) :
    ∃ n, (run (step cap) s (.dequeue :: List.replicate n .consume)).map
      (fun t => (t.ring, t.consumer, t.out)) =
        some ((s.ring.tryDequeue cap).2, .idle, s.out ++ (s.ring.tryDequeue cap).1.toList) := by
  rcases eq_or_ne (modcap cap s.ring.readfront) (modcap cap s.ring.back) with h | h
  · refine ⟨2, ?_⟩
    simp [List.replicate, step, act, consume, State.noteFull, RingQueue.tryDequeue, hc, h]
  · refine ⟨4, ?_⟩
    simp [List.replicate, step, act, consume, State.noteFull, RingQueue.tryDequeue, hc, h]

theorem dequeueBulk_alone (hc : s.consumer = .idle) (maxOut : ℕ) :
    ∃ n, (run (step cap) s (.dequeueBulk maxOut :: List.replicate n .consume)).map
      (fun t => (t.ring, t.consumer, t.out)) =
        some ((s.ring.tryDequeueBulk cap maxOut).2, .idle,
          s.out ++ (s.ring.tryDequeueBulk cap maxOut).1) := by
  rcases eq_or_ne (modcap cap s.ring.readfront) (modcap cap s.ring.back) with h | h
  · refine ⟨2, ?_⟩
    simp [List.replicate, step, act, consume, State.noteFull, RingQueue.tryDequeueBulk, hc, h]
  · refine ⟨4, ?_⟩
    simp [List.replicate, step, act, consume, State.noteFull, RingQueue.tryDequeueBulk, hc, h]

end Esp.RingThreads
