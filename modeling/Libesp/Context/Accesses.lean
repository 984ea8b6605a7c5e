import Libesp.Context.Names
import Libesp.Map.HashProgress
import Libesp.Queue.RingProgress

/-! @esp context | name:ThreadContext, ProfileContext | scheme:machine |
    source:src/profile.cpp, src/Context.cpp (InitThread, FrameEnd, Zone, End, Sample, StampEvent,
    NextEventID, MapStringToReference)

    The recording calls one access to shared memory at a time. Between two accesses of a call the other
    threads take any number of steps, the drain thread dequeues, the timer thread stores the clock and
    frames end. The table is the machine of `PointerHash`, each ring that of `LocklessRingQueue`; what a
    call does to its own thread's stack nobody else sees, and is done when its last answer is in.

        esp_zone     _paused ─▶ InitThread ─▶ NextEventID ─▶ clock ─▶ frame ─▶ Get, Put ─▶ idle
                                                                                │ new
                                                                                ▼
                                                                     TryEnqueue of the string
        esp_sample   as esp_zone, then TryEnqueue of the event
        esp_end      _paused ─▶ InitThread ─▶ clock ─▶ TryEnqueue of the event -/

namespace Esp.Context
open Event PointerHash LocklessRing Slab

variable {K : Type}

/-- What `StampEvent` reads before it asks for the reference of the name. -/
structure Reads where
  id : UInt32
  now : Int64
  frameNumber : UInt32
  deriving DecidableEq, Repr

/-- The fields `StampEvent` sets, in the event of the thread with context `threadIndex`. -/
def Reads.stampEvent (r : Reads) (nameRef : UInt32) (threadIndex : ℕ) (ev : ProfileEvent) :
    ProfileEvent :=
  { header := { ev.header with id := r.id }
    data := { ev.data with
      threadID := UInt32.ofNat threadIndex
      timestamp := r.now
      frameNumber := r.frameNumber
      eventNameRef := nameRef } }

/-- `Zone`, `End` or `Sample` with what it has been answered: the thread's context after it, and the
    history of the call. -/
def ThreadContext.recordWith (t : ThreadContext) (number : ℕ) (c : Call K) (r : Reads)
    (nameRef : UInt32) : ThreadContext × Entry K :=
  match c with
  | .zone zoneName =>
    match t.profileIntervalStack.push with
    | none => (t, ⟨number, r.now, .zone zoneName, none, none, none⟩)
    | some (slot, stack) =>
      let ev := r.stampEvent nameRef t.threadIndex (stack.slab slot)
      let ev : ProfileEvent :=
        { header := { ev.header with eventType := EV_ZONE_INTERVAL }
          data := { ev.data with parentEventRef := t.peekParentID } }
      ({ t with profileIntervalStack := stack.store slot ev, openedBy := number :: t.openedBy },
        ⟨number, r.now, .zone zoneName, some ⟨r.id, nameRef⟩, none, none⟩)
  | .endZone =>
    match t.profileIntervalStack.pop with
    | none => (t, ⟨number, r.now, .endZone, none, none, none⟩)
    | some (slot, stack) =>
      let ev := stack.slab slot
      let ev : ProfileEvent := { ev with
        data := { ev.data with value := elapsed r.now ev.data.timestamp } }
      ({ t with profileIntervalStack := stack.store slot ev, openedBy := t.openedBy.tail },
        ⟨number, r.now, .endZone, none, some ev, t.openedBy.head?⟩)
  | .sample probeName probe =>
    let pe := r.stampEvent nameRef t.threadIndex ⟨⟨0, 0⟩, ⟨0, 0, 0, 0, 0, 0⟩⟩
    let pe : ProfileEvent :=
      { header := { pe.header with eventType := probe.eventType }
        data := { pe.data with value := probe.value, parentEventRef := t.peekParentID } }
    (t, ⟨number, r.now, .sample probeName probe, some ⟨r.id, nameRef⟩, some pe, none⟩)

/-- What a call reads that nothing comes between. -/
def ProfileContext.reads (C : ProfileContext K) (now : Int64) : Reads :=
  ⟨UInt32.ofNat C.nextMessageID, now, UInt32.ofNat C.frameNumber⟩

variable [DecidableEq K]

/-- REFINEMENT: a call from start to end is the call with what it reads on the spot. -/
theorem record_recordWith (sh : Shape K) (t : ThreadContext) (C : ProfileContext K) (number : ℕ)
    (now : Int64) (c : Call K) :
    ((t.record sh C number now c).thread, (t.record sh C number now c).entry) =
      t.recordWith number c (C.reads now) (C.nextEventID.2.mapStringToReference sh c.name).1 := by
  cases c with
  | zone name =>
    simp only [ThreadContext.record, ThreadContext.zone, ThreadContext.recordWith]
    rcases t.profileIntervalStack.push with _ | ⟨slot, stack⟩ <;> rfl
  | endZone =>
    simp only [ThreadContext.record, ThreadContext.endZone, ThreadContext.recordWith]
    rcases t.profileIntervalStack.pop with _ | ⟨slot, stack⟩ <;> rfl
  | sample name probe => rfl

omit [DecidableEq K] in
theorem recordWith_entry (t : ThreadContext) (number : ℕ) (c : Call K) (r : Reads)
    (nameRef : UInt32) :
    (t.recordWith number c r nameRef).2.call = c ∧
      (t.recordWith number c r nameRef).1.threadIndex = t.threadIndex := by
  cases c with
  | zone name =>
    simp only [ThreadContext.recordWith]
    split <;> exact ⟨rfl, rfl⟩
  | endZone =>
    simp only [ThreadContext.recordWith]
    split <;> exact ⟨rfl, rfl⟩
  | sample name probe => exact ⟨rfl, rfl⟩

omit [DecidableEq K] in
/-- A call stamps its event with its id and its reference exactly when it gets to `NextEventID`. -/
theorem recordWith_stamp (t : ThreadContext) (number : ℕ) (c : Call K) (r : Reads)
    (nameRef : UInt32) :
    (t.recordWith number c r nameRef).2.stamp = (t.passes c).map fun _ => ⟨r.id, nameRef⟩ := by
  cases c with
  | zone name =>
    simp only [ThreadContext.recordWith, ThreadContext.passes]
    rcases t.profileIntervalStack.push with _ | ⟨slot, stack⟩ <;> rfl
  | endZone =>
    simp only [ThreadContext.recordWith, ThreadContext.passes]
    split <;> rfl
  | sample name probe => rfl

omit [DecidableEq K] in
/-- The name that gets to `MapStringToReference` is the call's. -/
theorem name_of_passes {t : ThreadContext} {c : Call K} {name : Option K} (h : t.passes c = some name) :
    name = c.name := by
  cases c with
  | zone zoneName =>
    obtain ⟨-, -, rfl⟩ := Option.map_eq_some_iff.mp h
    rfl
  | endZone => cases h
  | sample probeName probe => exact (Option.some.inj h).symm

/-- STEP: whatever it has been answered, a call is a step of the thread's stack machine. -/
theorem recordWith_local (sh : Shape K) (C : ProfileContext K) {t : ThreadContext}
    {st : List OpenZone} (h : StackOk t st) (number : ℕ) (c : Call K) (r : Reads) {nameRef : UInt32}
    (href : isIndex nameRef = true ∨ nameRef = noRef) :
    ∃ st', LocalStep espMaxZoneRecursion t.threadIndex st (t.recordWith number c r nameRef).2 st' ∧
      StackOk (t.recordWith number c r nameRef).1 st' := by
  -- a session that answers these on the spot: the name is in every slot
  let D : ProfileContext K := { C with
    nextMessageID := r.id.toNat
    frameNumber := r.frameNumber.toNat
    strings := ⟨fun _ => c.name, fun _ => nameRef.toNat, 0⟩ }
  have hreads : D.reads r.now = r := by
    simp only [ProfileContext.reads, D, UInt32.ofNat_toNat]
  obtain ⟨n, hn⟩ : ∃ n, sh.capacity = n + 1 :=
    Nat.exists_eq_succ_of_ne_zero (Nat.ne_of_gt (Nat.zero_lt_of_lt (sh.start_lt none)))
  have hget : D.nextEventID.2.strings.get sh c.name = nameRef := by
    rw [Table.get, hn, getLoop]
    exact (if_pos rfl).trans UInt32.ofNat_toNat
  have hput : (D.nextEventID.2.strings.put sh c.name).1 = noRef := by
    rw [Table.put, hn, putLoop]
    exact congrArg Prod.fst (if_pos rfl)
  have hmap : (D.nextEventID.2.mapStringToReference sh c.name).1 = nameRef := by
    rw [ProfileContext.mapStringToReference]
    simp only [hget, hput]
    rcases href with hidx | rfl
    · rw [if_pos hidx]
    · rw [if_neg (by decide), if_neg (by decide)]
  have hrecord := record_recordWith sh t D number r.now c
  rw [hreads, hmap] at hrecord
  obtain ⟨st', hstep, hst'⟩ := record_local D sh h number r.now c
  rw [← hrecord]
  exact ⟨st', hstep, hst'⟩

end Esp.Context

namespace Esp.Accesses
open Event PointerHash LocklessRing Context

/-- Where a thread is in a recording call, with the index of its context and what it has read. -/
inductive Place (K : Type) where
  | idle
  | entered (c : Call K)
  | unpaused (c : Call K)
  | ready (i : ℕ) (c : Call K)
  | numbered (i : ℕ) (c : Call K) (id : UInt32)
  | timed (i : ℕ) (c : Call K) (id : UInt32) (now : Int64)
  | mapping (i : ℕ) (c : Call K) (r : Reads)
  /-- In `MapStringToReference`, in the `TryEnqueue` of the string. -/
  | naming (i : ℕ) (c : Call K) (r : Reads)
  | offering (event : ProfileEvent)
  | sending

structure State (T K : Type) where
  paused : Bool
  currentTimestamp : Int64
  threadCount : ℕ
  nextMessageID : ℕ
  frameNumber : ℕ
  threadContexts : ℕ → ThreadContext
  /-- The index that each thread's `_thread_context` points to. -/
  threadContext : T → Option ℕ
  strings : HashThreads.State T K
  stringQueue : RingThreads.State T (RuntimeStringReference K)
  eventQueue : RingThreads.State T ProfileEvent
  place : T → Place K
  /-- History: the recording calls, in the order in which their last answers came in. -/
  log : List (T × Entry K)

inductive Action (T K : Type) where
  | call (t : T) (c : Call K)
  /-- The next access of thread `t` in its call; one that is a CAS that fails for no reason. -/
  | go (t : T)
  | casFails (t : T)
  | threadInit (t : T)
  | setPaused (shouldPause : Bool)
  | updateTimestamp (now : Int64)
  | frameEnd
  /-- The drain thread in the two queues. -/
  | dequeueEvents (maxOut : ℕ)
  | consumeEvents
  | dequeueString
  | consumeString

variable {T K : Type}

/-- A session just opened, in which no thread has a context. -/
def State.new (junk : Junk K) : State T K where
  paused := false
  currentTimestamp := 0
  threadCount := 0
  nextMessageID := 1
  frameNumber := 0
  threadContexts i := ThreadContext.new i (junk.slabs i)
  threadContext := fun _ => none
  strings := .new
  stringQueue := .new junk.strings
  eventQueue := .new junk.events
  place := fun _ => .idle
  log := []

variable [DecidableEq T]

def State.goto (s : State T K) (t : T) (pl : Place K) : State T K :=
  { s with place := Function.update s.place t pl }

/-- `InitThread`, whose one access is the `fetch_add`. -/
def State.initThread (s : State T K) (t : T) : State T K :=
  match s.threadContext t with
  | some _ => s
  | none => { s with
    threadCount := s.threadCount + 1
    threadContext := Function.update s.threadContext t (some s.threadCount) }

/-- What a call does in the context of its thread, and its event on the way to `TryEnqueue`. -/
def State.settle (s : State T K) (t : T) (i : ℕ) (c : Call K) (r : Reads) (nameRef : UInt32) :
    State T K :=
  let got := (s.threadContexts i).recordWith s.log.length c r nameRef
  { s.goto t (got.2.offered.elim .idle .offering) with
    threadContexts := Function.update s.threadContexts i got.1
    log := s.log ++ [(t, got.2)] }

/-- After a step of `MapStringToReference` that leaves the table's machine in `h`; a call that has just
    returned is the last of `returned`, with its answer. -/
def State.looked (s : State T K) (t : T) (i : ℕ) (c : Call K) (r : Reads)
    (h : HashThreads.State T K) : State T K :=
  match h.thread t, h.returned.getLast? with
  | .idle, some answer => { s with strings := h }.settle t i c r answer.ref
  | _, _ => { s with strings := h }.goto t (.mapping i c r)

variable [DecidableEq K] (sh : Shape K)

def State.lookUp (s : State T K) (t : T) (i : ℕ) (c : Call K) (r : Reads)
    (a : HashThreads.Action T K) : Option (State T K) :=
  (HashThreads.step sh s.strings a).map (s.looked t i c r)

/-- The next access of thread `t`. -/
def go (s : State T K) (t : T) : Option (State T K) :=
  match s.place t with
  | .idle => none
  | .entered c => some (s.goto t (if s.paused then .idle else .unpaused c))
  | .unpaused c =>
    match (s.initThread t).threadContext t with
    | none => none
    | some i =>
      if i < espMaxThreadCount then some ((s.initThread t).goto t (.ready i c))
      else none  -- past the end of `threadContexts`
  | .ready i c =>
    match (s.threadContexts i).passes c with
    | some _ => some { s.goto t (.numbered i c (UInt32.ofNat s.nextMessageID)) with
        nextMessageID := s.nextMessageID + 1 }
    | none =>  -- `End`, or a zone that finds the stack full: no event is stamped
      some (s.settle t i c ⟨0, s.currentTimestamp, 0⟩ noRef)
  | .numbered i c id => some (s.goto t (.timed i c id s.currentTimestamp))
  | .timed i c id now =>
    (HashThreads.step sh s.strings (.mapStringToReference t c.name)).map fun h =>
      { s.goto t (.mapping i c ⟨id, now, UInt32.ofNat s.frameNumber⟩) with strings := h }
  | .mapping i c r =>
    match s.strings.thread t with
    | .offer (some ptr) ref =>
      (RingThreads.step stringQueueCapacity s.stringQueue (.enqueue t ⟨ref, ptr⟩)).map fun q =>
        { s.goto t (.naming i c r) with stringQueue := q }
    | _ => s.lookUp sh t i c r (.go t)
  | .naming i c r =>
    (RingThreads.step stringQueueCapacity s.stringQueue (.produce t)).bind fun q =>
      match q.producer t with
      | .idle => { s with stringQueue := q }.lookUp sh t i c r (.go t)
      | _ => some { s with stringQueue := q }
  | .offering event =>
    (RingThreads.step espMaxEventBuffer s.eventQueue (.enqueue t event)).map fun q =>
      { s.goto t .sending with eventQueue := q }
  | .sending =>
    (RingThreads.step espMaxEventBuffer s.eventQueue (.produce t)).map fun q =>
      match q.producer t with
      | .idle => { s.goto t .idle with eventQueue := q }
      | _ => { s with eventQueue := q }

def casFails (s : State T K) (t : T) : Option (State T K) :=
  match s.place t with
  | .mapping i c r => s.lookUp sh t i c r (.casFails t)
  | .naming _ _ _ =>
    (RingThreads.step stringQueueCapacity s.stringQueue (.casFails t)).map fun q =>
      { s with stringQueue := q }
  | .sending =>
    (RingThreads.step espMaxEventBuffer s.eventQueue (.casFails t)).map fun q =>
      { s with eventQueue := q }
  | _ => none

def step (s : State T K) : Action T K → Option (State T K)
  | .call t c =>
    match s.place t with
    | .idle => some (s.goto t (.entered c))
    | _ => none
  | .go t => go sh s t
  | .casFails t => casFails sh s t
  | .threadInit t =>
    match s.place t with
    | .idle => some (s.initThread t)
    | _ => none
  | .setPaused shouldPause => some { s with paused := shouldPause }
  | .updateTimestamp now => some { s with currentTimestamp := now }
  | .frameEnd => some { s with frameNumber := s.frameNumber + 1 }
  | .dequeueEvents maxOut =>
    (RingThreads.step espMaxEventBuffer s.eventQueue (.dequeueBulk maxOut)).map fun q =>
      { s with eventQueue := q }
  | .consumeEvents =>
    (RingThreads.step espMaxEventBuffer s.eventQueue .consume).map fun q =>
      { s with eventQueue := q }
  | .dequeueString =>
    (RingThreads.step stringQueueCapacity s.stringQueue .dequeue).map fun q =>
      { s with stringQueue := q }
  | .consumeString =>
    (RingThreads.step stringQueueCapacity s.stringQueue .consume).map fun q =>
      { s with stringQueue := q }

/-- The transitions of `step`, one constructor for each place in the source. -/
inductive Moves (s : State T K) : Action T K → State T K → Prop
  | call {t c} (h : s.place t = .idle) : Moves s (.call t c) (s.goto t (.entered c))
  | turnBack {t c} (h : s.place t = .entered c) (hp : s.paused = true) :
    Moves s (.go t) (s.goto t .idle)
  | enter {t c} (h : s.place t = .entered c) (hp : s.paused = false) :
    Moves s (.go t) (s.goto t (.unpaused c))
  | bind {t c i} (h : s.place t = .unpaused c) (hi : (s.initThread t).threadContext t = some i)
      (hlt : i < espMaxThreadCount) :
    Moves s (.go t) ((s.initThread t).goto t (.ready i c))
  | draw {t i c name} (h : s.place t = .ready i c)
      (hname : (s.threadContexts i).passes c = some name) :
    Moves s (.go t) { s.goto t (.numbered i c (UInt32.ofNat s.nextMessageID)) with
      nextMessageID := s.nextMessageID + 1 }
  | unstamped {t i c} (h : s.place t = .ready i c) (hname : (s.threadContexts i).passes c = none) :
    Moves s (.go t) (s.settle t i c ⟨0, s.currentTimestamp, 0⟩ noRef)
  | readClock {t i c id} (h : s.place t = .numbered i c id) :
    Moves s (.go t) (s.goto t (.timed i c id s.currentTimestamp))
  | readFrame {t i c id now u} (h : s.place t = .timed i c id now)
      (hu : HashThreads.step sh s.strings (.mapStringToReference t c.name) = some u) :
    Moves s (.go t) { s.goto t (.mapping i c ⟨id, now, UInt32.ofNat s.frameNumber⟩) with
      strings := u }
  | look {a t i c r b u} (h : s.place t = .mapping i c r)
      (hab : a = .go t ∧ b = .go t ∨ a = .casFails t ∧ b = .casFails t)
      (hoffer : ∀ ptr ref, b = .go t → s.strings.thread t ≠ .offer (some ptr) ref)
      (hu : HashThreads.step sh s.strings b = some u) : Moves s a (s.looked t i c r u)
  | name {t i c r ptr ref q} (h : s.place t = .mapping i c r)
      (hoffer : s.strings.thread t = .offer (some ptr) ref)
      (hq : RingThreads.step stringQueueCapacity s.stringQueue (.enqueue t ⟨ref, ptr⟩) = some q) :
    Moves s (.go t) { s.goto t (.naming i c r) with stringQueue := q }
  | nameOn {a t i c r b q} (h : s.place t = .naming i c r)
      (hab : a = .go t ∧ b = .produce t ∧ q.producer t ≠ .idle ∨ a = .casFails t ∧ b = .casFails t)
      (hq : RingThreads.step stringQueueCapacity s.stringQueue b = some q) :
    Moves s a { s with stringQueue := q }
  | named {t i c r q u} (h : s.place t = .naming i c r)
      (hq : RingThreads.step stringQueueCapacity s.stringQueue (.produce t) = some q)
      (hidle : q.producer t = .idle) (hu : HashThreads.step sh s.strings (.go t) = some u) :
    Moves s (.go t) ({ s with stringQueue := q }.looked t i c r u)
  | offer {t event q} (h : s.place t = .offering event)
      (hq : RingThreads.step espMaxEventBuffer s.eventQueue (.enqueue t event) = some q) :
    Moves s (.go t) { s.goto t .sending with eventQueue := q }
  | sendOn {a t b q} (h : s.place t = .sending)
      (hab : a = .go t ∧ b = .produce t ∧ q.producer t ≠ .idle ∨ a = .casFails t ∧ b = .casFails t)
      (hq : RingThreads.step espMaxEventBuffer s.eventQueue b = some q) :
    Moves s a { s with eventQueue := q }
  | sent {t q} (h : s.place t = .sending)
      (hq : RingThreads.step espMaxEventBuffer s.eventQueue (.produce t) = some q)
      (hidle : q.producer t = .idle) :
    Moves s (.go t) { s.goto t .idle with eventQueue := q }
  | threadInit {t} (h : s.place t = .idle) : Moves s (.threadInit t) (s.initThread t)
  | setPaused {b} : Moves s (.setPaused b) { s with paused := b }
  | updateTimestamp {now} : Moves s (.updateTimestamp now) { s with currentTimestamp := now }
  | frameEnd : Moves s .frameEnd { s with frameNumber := s.frameNumber + 1 }
  | drainEvents {a b q}
      (hab : (∃ maxOut, a = .dequeueEvents maxOut ∧ b = .dequeueBulk maxOut) ∨
        a = .consumeEvents ∧ b = .consume)
      (hq : RingThreads.step espMaxEventBuffer s.eventQueue b = some q) :
    Moves s a { s with eventQueue := q }
  | drainStrings {a b q}
      (hab : a = .dequeueString ∧ b = .dequeue ∨ a = .consumeString ∧ b = .consume)
      (hq : RingThreads.step stringQueueCapacity s.stringQueue b = some q) :
    Moves s a { s with stringQueue := q }

variable {sh} {s s' : State T K}

theorem moves_of_go {t : T} (h : go sh s t = some s') : Moves sh s (.go t) s' := by
  unfold go at h
  cases ht : s.place t with
  | idle => rw [ht] at h; cases h
  | entered c =>
    rw [ht] at h
    obtain rfl := Option.some.inj h
    cases hp : s.paused with
    | true => exact .turnBack ht hp
    | false => exact .enter ht hp
  | unpaused c =>
    rw [ht] at h
    simp only at h
    split at h
    · cases h
    · rename_i i hi
      split at h
      · rename_i hlt
        obtain rfl := Option.some.inj h
        exact .bind ht hi hlt
      · cases h
  | ready i c =>
    rw [ht] at h
    simp only at h
    split at h
    · rename_i name hname
      obtain rfl := Option.some.inj h
      exact .draw ht hname
    · rename_i hname
      obtain rfl := Option.some.inj h
      exact .unstamped ht hname
  | numbered i c id =>
    rw [ht] at h
    obtain rfl := Option.some.inj h
    exact .readClock ht
  | timed i c id now =>
    rw [ht] at h
    obtain ⟨u, hu, rfl⟩ := Option.map_eq_some_iff.mp h
    exact .readFrame ht hu
  | mapping i c r =>
    rw [ht] at h
    simp only at h
    split at h
    · rename_i ptr ref hoffer
      obtain ⟨q, hq, rfl⟩ := Option.map_eq_some_iff.mp h
      exact .name ht hoffer hq
    · rename_i hoffer
      obtain ⟨u, hu, rfl⟩ := Option.map_eq_some_iff.mp h
      exact .look ht (Or.inl ⟨rfl, rfl⟩) (fun ptr ref _ => hoffer ptr ref) hu
  | naming i c r =>
    rw [ht] at h
    obtain ⟨q, hq, h⟩ := Option.bind_eq_some_iff.mp h
    split at h
    · rename_i hidle
      obtain ⟨u, hu, rfl⟩ := Option.map_eq_some_iff.mp h
      exact .named ht hq hidle hu
    · rename_i hbusy
      obtain rfl := Option.some.inj h
      exact .nameOn ht (Or.inl ⟨rfl, rfl, hbusy⟩) hq
  | offering event =>
    rw [ht] at h
    obtain ⟨q, hq, rfl⟩ := Option.map_eq_some_iff.mp h
    exact .offer ht hq
  | sending =>
    rw [ht] at h
    obtain ⟨q, hq, rfl⟩ := Option.map_eq_some_iff.mp h
    split
    · rename_i hidle
      exact .sent ht hq hidle
    · rename_i hbusy
      exact .sendOn ht (Or.inl ⟨rfl, rfl, hbusy⟩) hq

/-- INVERSION: a step is one of the transitions. -/
theorem step_moves {a : Action T K} (h : step sh s a = some s') : Moves sh s a s' := by
  cases a with
  | call t c =>
    simp only [step] at h
    split at h
    · rename_i ht
      obtain rfl := Option.some.inj h
      exact .call ht
    · cases h
  | go t => exact moves_of_go h
  | casFails t =>
    simp only [step, casFails] at h
    split at h
    · rename_i i c r ht
      obtain ⟨u, hu, rfl⟩ := Option.map_eq_some_iff.mp h
      exact .look ht (Or.inr ⟨rfl, rfl⟩) (fun ptr ref hgo => by cases hgo) hu
    · rename_i i c r ht
      obtain ⟨q, hq, rfl⟩ := Option.map_eq_some_iff.mp h
      exact .nameOn ht (Or.inr ⟨rfl, rfl⟩) hq
    · rename_i ht
      obtain ⟨q, hq, rfl⟩ := Option.map_eq_some_iff.mp h
      exact .sendOn ht (Or.inr ⟨rfl, rfl⟩) hq
    · cases h
  | threadInit t =>
    simp only [step] at h
    split at h
    · rename_i ht
      obtain rfl := Option.some.inj h
      exact .threadInit ht
    · cases h
  | setPaused b =>
    obtain rfl := Option.some.inj h
    exact .setPaused
  | updateTimestamp now =>
    obtain rfl := Option.some.inj h
    exact .updateTimestamp
  | frameEnd =>
    obtain rfl := Option.some.inj h
    exact .frameEnd
  | dequeueEvents maxOut =>
    obtain ⟨q, hq, rfl⟩ := Option.map_eq_some_iff.mp h
    exact .drainEvents (Or.inl ⟨maxOut, rfl, rfl⟩) hq
  | consumeEvents =>
    obtain ⟨q, hq, rfl⟩ := Option.map_eq_some_iff.mp h
    exact .drainEvents (Or.inr ⟨rfl, rfl⟩) hq
  | dequeueString =>
    obtain ⟨q, hq, rfl⟩ := Option.map_eq_some_iff.mp h
    exact .drainStrings (Or.inl ⟨rfl, rfl⟩) hq
  | consumeString =>
    obtain ⟨q, hq, rfl⟩ := Option.map_eq_some_iff.mp h
    exact .drainStrings (Or.inr ⟨rfl, rfl⟩) hq

end Esp.Accesses
